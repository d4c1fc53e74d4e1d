import IftopColor.LockOrder
import IftopColor.UiLoop
import Mathlib.Data.Fintype.Sum
import Mathlib.Tactic.DeriveFintype

/-!
# The mutexes of the program

`tick` holds `tick_mutex` while it rotates, sorts and draws; `resolve`, which it calls for every
name it shows, holds `resolver_queue_mutex`, and so do the resolver threads between their waits;
the lookup of a name has a mutex of its own. The threads of the program never wait for each other
for good. `SIGQUIT` enters the loop of the keys once more on the thread that it interrupts; when
that thread is inside `tick`, it waits for itself and the program stands still.
-/

namespace IftopColor.TickMutex

open GuardedRun LockOrder UiLoop

/-- The mutexes. -/
inductive Mutex where
  /-- `tick_mutex`. -/
  | tick
  /-- `resolver_queue_mutex`. -/
  | queue
  /-- The mutex of `do_resolve`. -/
  | lookup
  deriving DecidableEq

/-- The threads. -/
inductive Party where
  /-- The thread of `main`. -/
  | ui
  /-- `packet_loop`. -/
  | capture
  /-- `resolver_worker`. -/
  | worker (w : Fin 2)
  deriving DecidableEq,Fintype

/-- What a thread does to the mutexes. -/
abbrev Code := List (LockOrder.Op Mutex)

/-- Calls of `resolve`. -/
def resolves : ℕ→ Code
  | 0 => []
  | n+1 => .lock .queue::.unlock .queue::resolves n

/-- `tick`, with the names that are resolved in it. -/
def tick (names : ℕ) : Code := .lock .tick::(resolves names++[.unlock .tick])

/-- A call of the key loop, with the names that are resolved in it. -/
def uiCall (names : ℕ) : Call→ Code
  | .showhelp _ => TickMutex.tick names
  | .tick _ => TickMutex.tick names
  | .uiPrint => resolves names
  | .persist => []
  | .dontshowdisplay _ => []
  | .wrefresh => []

/-- Turns of the key loop. -/
def turns : List (Call×ℕ)→ Code
  | [] => []
  | (call,names)::calls => uiCall names call++turns calls

/-- A packet: Ethernet frames call `tick`, and the addresses may be resolved. -/
def packet (ticks : Option ℕ) (names : ℕ) : Code :=
  match ticks with
  | some n => TickMutex.tick n++resolves names
  | none => resolves names

/-- The addresses that a resolver thread takes from the queue. -/
def lookups : ℕ→ Code
  | 0 => [.unlock .queue]
  | n+1 => .unlock .queue::.lock .lookup::.unlock .lookup::.lock .queue::lookups n

/-- A resolver thread from the end of a wait to the next one, or from its start to the first. -/
def worker (addresses : ℕ) : Code := .lock .queue::lookups addresses

/-- What happens next. -/
inductive Event where
  /-- The key loop runs. -/
  | keys (calls : List (Call×ℕ))
  /-- A packet is captured. -/
  | packet (ticks : Option ℕ) (names : ℕ)
  /-- A resolver thread starts or is woken. -/
  | wake (w : Fin 2) (addresses : ℕ)
  /-- `SIGQUIT` interrupts a thread, which runs `eraseAndLoop`. -/
  | sigquit (p : Party) (calls : List (Call×ℕ))
  /-- A thread goes on. -/
  | go (p : Party)

/-- The code that a thread has called is run first, and another call comes when it has been. -/
def start (s : State Party Mutex) (p : Party) (code : Code) : Option (State Party Mutex) :=
  if (s.code p).isEmpty then some (s.call p code) else none

/-- The effect of an event, or `none` when it is not enabled. -/
def next (s : State Party Mutex) : Event→Option (State Party Mutex)
  | .keys calls => start s .ui (turns calls)
  | .packet ticks names => start s .capture (packet ticks names)
  | .wake w addresses => start s (.worker w) (worker addresses)
  | .sigquit p calls => some (s.call p (turns calls))
  | .go p => LockOrder.step s p

/-- `SIGQUIT` only interrupts threads that hold no mutex. -/
def Outside (s : State Party Mutex) : Event→Prop
  | .sigquit p _ => ∀ l,s.holder l≠some p
  | _ => True

/-- The order in which the mutexes are taken. -/
def rank : Mutex→ℕ
  | .tick => 0
  | .queue => 1
  | .lookup => 2

/-- Code that takes the mutexes in this order, or, with `strict` off, in any. -/
def Before (strict : Bool) (k l : Mutex) : Prop := strict=true → rank k< rank l

variable {strict : Bool} {s s' : State Party Mutex} {held : Party→List Mutex}

/-- Pieces of code that are disciplined one by one are disciplined in a row. -/
theorem Disciplined.then {code rest : Code} (h : Disciplined (Before strict) [] code)
    (hr : Disciplined (Before strict) [] rest) : Disciplined (Before strict) [] (code++rest) :=
  h.append hr fun _ hk => absurd hk List.not_mem_nil

/-- `resolve` takes and releases the mutex of the queue. -/
theorem resolves_disciplined (names : ℕ) : Disciplined (Before strict) [] (resolves names) := by
  induction names with
  | zero => rfl
  | succ n ih => exact ⟨fun _ hk => absurd hk List.not_mem_nil,List.mem_singleton_self _,ih⟩

/-- The only mutex that `resolve` takes. -/
theorem lock_mem_resolves {names : ℕ} {l : Mutex} (h : .lock l∈resolves names) : l=.queue := by
  induction names with
  | zero => exact absurd h List.not_mem_nil
  | succ n ih =>
    rcases List.mem_cons.mp h with h|h
    · exact LockOrder.Op.lock.inj h
    · exact ih ((List.mem_cons.mp h).resolve_left fun heq => by cases heq)

/-- `tick` takes the mutex of the resolver inside its own, as the order allows. -/
theorem tick_disciplined (names : ℕ) :
    Disciplined (Before strict) [] (TickMutex.tick names) := by
  refine ⟨fun _ hk => absurd hk List.not_mem_nil,?_⟩
  have hend : Disciplined (Before strict) [.tick] [.unlock .tick] :=
    ⟨List.mem_singleton_self _,rfl⟩
  refine (resolves_disciplined names).append hend ?_
  intro k hk l hl _
  rw [List.mem_singleton.mp hk,lock_mem_resolves hl]
  exact Nat.zero_lt_one

/-- Every call of the key loop takes its mutexes in order and releases them. -/
theorem uiCall_disciplined (names : ℕ) (call : Call) :
    Disciplined (Before strict) [] (uiCall names call) := by
  cases call with
  | showhelp message => exact tick_disciplined names
  | tick print => exact tick_disciplined names
  | uiPrint => exact resolves_disciplined names
  | persist => rfl
  | dontshowdisplay hidden => rfl
  | wrefresh => rfl

/-- The key loop takes mutexes in order in all of its turns. -/
theorem turns_disciplined (calls : List (Call×ℕ)) :
    Disciplined (Before strict) [] (turns calls) := by
  induction calls with
  | nil => rfl
  | cons call calls ih => exact Disciplined.then (uiCall_disciplined call.2 call.1) ih

/-- The capture thread takes mutexes in order for every packet. -/
theorem packet_disciplined (ticks : Option ℕ) (names : ℕ) :
    Disciplined (Before strict) [] (packet ticks names) := by
  cases ticks with
  | none => exact resolves_disciplined names
  | some n => exact Disciplined.then (tick_disciplined n) (resolves_disciplined names)

/-- A resolver thread takes mutexes in order for all addresses. -/
theorem worker_disciplined (addresses : ℕ) :
    Disciplined (Before strict) [] (worker addresses) := by
  have hlookups : Disciplined (Before strict) [.queue] (lookups addresses) := by
    induction addresses with
    | zero => exact ⟨List.mem_singleton_self _,rfl⟩
    | succ n ih =>
      exact ⟨List.mem_singleton_self _,fun _ hk => absurd hk List.not_mem_nil,
        List.mem_singleton_self _,fun _ hk => absurd hk List.not_mem_nil,ih⟩
  exact ⟨fun _ hk => absurd hk List.not_mem_nil,hlookups⟩

/-- An event as a call or a step. -/
def Event.action : Event→Action Party Mutex
  | .keys calls => .call .ui (turns calls)
  | .packet ticks names => .call .capture (TickMutex.packet ticks names)
  | .wake w addresses => .call (.worker w) (worker addresses)
  | .sigquit p calls => .call p (turns calls)
  | .go p => .step p

/-- A thread calls more when it has run its code. -/
theorem start_eq {p : Party} {code : Code} (h : start s p code=some s') :
    s.code p=[] ∧ LockOrder.next s (.call p code)=some s' := by
  unfold start at h
  by_cases hidle : (s.code p).isEmpty
  · rw [if_pos hidle] at h
    exact ⟨List.isEmpty_iff.mp hidle,h⟩
  · rw [if_neg hidle] at h
    cases h

/-- A thread that has run its code calls more code of the program. -/
theorem start_orderly {p : Party} {code : Code} (h : Ordered (Before strict) s held)
    (hc : Disciplined (Before strict) [] code) (hn : start s p code=some s') :
    Orderly (Before strict) s (.call p code) :=
  ⟨hc,fun _ hl => absurd (start_eq hn).1 (h.code_ne_nil hl)⟩

/-- An event of the program is a call of a thread or a step of one. -/
theorem next_action {e : Event} (hn : TickMutex.next s e=some s') :
    LockOrder.next s e.action=some s' := by
  cases e with
  | keys calls => exact (start_eq hn).2
  | packet ticks names => exact (start_eq hn).2
  | wake w addresses => exact (start_eq hn).2
  | sigquit p calls => exact hn
  | go p => exact hn

/-- All steps are orderly, but for `SIGQUIT` at a thread that holds a mutex. -/
theorem next_orderly {e : Event} (h : Ordered (Before strict) s held)
    (he : strict=true → Outside s e) (hn : TickMutex.next s e=some s') :
    Orderly (Before strict) s e.action := by
  cases e with
  | keys calls => exact start_orderly h (turns_disciplined calls) hn
  | packet ticks names => exact start_orderly h (packet_disciplined ticks names) hn
  | wake w addresses => exact start_orderly h (worker_disciplined addresses) hn
  | sigquit p calls => exact ⟨turns_disciplined calls,fun l hl _ _ hst => absurd hl (he hst l)⟩
  | go p => exact trivial

/-- Runs of the program are orderly runs. -/
theorem orderly_run {s₀ : State Party Mutex} (h₀ : Ordered (Before strict) s₀ held)
    (h : Run TickMutex.next (fun s e => strict=true → Outside s e) s₀ s) :
    Run LockOrder.next (Orderly (Before strict)) s₀ s ∧ ∃ held,Ordered (Before strict) s held := by
  induction h with
  | init => exact ⟨.init,held,h₀⟩
  | step _ he hn ih =>
    obtain ⟨hrun,held₁,ho⟩ := ih
    have hg := next_orderly ho he hn
    exact ⟨.step hrun hg (next_action hn),ho.next hg (next_action hn)⟩

/-- A mutex that comes before another one has the lower rank. -/
theorem rank_of_before {k l : Mutex} (h : Before true k l) : rank k< rank l := h rfl

/-- A call of `tick` comes to its mutex first. -/
theorem turns_retakes {calls : List (Call×ℕ)} {print : Bool} {names : ℕ}
    (h : (Call.tick print,names)∈calls) : Retakes .tick (turns calls) := by
  induction calls with
  | nil => exact absurd h List.not_mem_nil
  | cons call calls ih =>
    rcases List.mem_cons.mp h with heq|hmem
    · rw [← heq]
      exact .inl rfl
    · have hcall : Disciplined (Before false) [] (uiCall call.2 call.1) :=
        uiCall_disciplined call.2 call.1
      exact hcall.retakes List.not_mem_nil (ih hmem)

/-- The schedule of the threads does not matter: unless `SIGQUIT` interrupts a thread that holds a
mutex, whatever the threads have called can be run to its end, in one step for each mutex that is
taken or released, and no mutex is held then. After `SIGQUIT` at a thread that is inside `tick`,
that thread holds `tick_mutex` for ever. -/
theorem mutexes (h : Run TickMutex.next Outside .init s) :
    (∀ (ps : List Party) s',ps.foldlM LockOrder.step s=some s' →
      (ps.length< remaining s ∧ ∃ p,LockOrder.step s' p≠none) ∨
        (ps.length=remaining s ∧ (∀ p,s'.code p=[]) ∧ ∀ l,s'.holder l=none)) ∧
    ∀ p calls print names s',s.holder .tick=some p → (Call.tick print,names)∈calls →
      Reaches TickMutex.next (s.call p (turns calls)) s' → s'.holder .tick=some p := by
  refine ⟨?_,?_⟩
  · have hstrict : Run TickMutex.next (fun s e => true=true → Outside s e) .init s :=
      h.mono fun _ _ he _ => he
    obtain ⟨-,held,ho⟩ := orderly_run ordered_init hstrict
    intro ps s' hs
    exact ho.no_deadlock (fun k l => rank_of_before (k := k) (l := l)) hs
  · have hweak : Run TickMutex.next (fun s e => false=true → Outside s e) .init s :=
      h.mono fun _ _ he _ => he
    obtain ⟨-,held,ho⟩ := orderly_run ordered_init hweak
    intro p calls print names s' hp hcalls hr
    have hcall : Ordered (Before false) (s.call p (turns calls)) held :=
      ho.call (turns_disciplined calls) fun _ _ _ _ hf => absurd hf Bool.false_ne_true
    have hstuck : Stuck (s.call p (turns calls)) p .tick := by
      refine ⟨hp,?_⟩
      show Retakes .tick (Function.update s.code p (turns calls++s.code p) p)
      rw [Function.update_self]
      exact (turns_retakes hcalls).append _
    have hr' : Run TickMutex.next (fun s e => false=true → Outside s e)
        (s.call p (turns calls)) s' := hr.mono fun _ _ _ hf => absurd hf Bool.false_ne_true
    exact (hstuck.run hcall (orderly_run hcall hr').1).holds

/-- The key loop inside `tick`. -/
def inTick : State Party Mutex :=
  ⟨Function.update (fun _ => none) .tick (some .ui),
    Function.update (Function.update (fun _ => []) .ui (turns [(.tick true,0)])) .ui [.unlock .tick]⟩

/-- `SIGQUIT` comes when the key loop is inside `tick`. -/
theorem mutexes_interrupted :
    inTick.holder .tick=some .ui ∧ ∀ s',
      Reaches TickMutex.next (inTick.call .ui (turns [(.tick false,0)])) s' →
        s'.holder .tick=some .ui := by
  have hkeys : Run TickMutex.next Outside .init
      (State.call .init .ui (turns [(.tick true,0)])) :=
    .step (a := .keys [(.tick true,0)]) .init trivial rfl
  have hrun : Run TickMutex.next Outside .init inTick := .step (a := .go .ui) hkeys trivial rfl
  exact ⟨rfl,fun s' => (mutexes hrun).2 .ui [(.tick false,0)] false 0 s' rfl List.mem_cons_self⟩

end IftopColor.TickMutex
