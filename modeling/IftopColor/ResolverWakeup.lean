import IftopColor.GuardedRun
import IftopColor.Resolver

/-!
# Waking the resolver threads

The threads of the resolver with their mutex and condition variable. A worker
locks the mutex and waits on the condition before it ever looks at the queue; a
call of `resolve` queues under the mutex and signals after unlocking it. A
signal wakes one thread that is blocked in `pthread_cond_wait` and is lost when
there is none.

A lost wakeup is a queue with an address in it while both workers are blocked
and no call is about to signal. The only way to get there is a signal sent
while both workers are still on their way to their first wait, with no other
call about to signal; from every such signal it can be reached.
-/

namespace IftopColor.ResolverWakeup

open AddrHash RingQueue Resolver GuardedRun

/-- Where a worker is. -/
inductive WorkerPc where
  /-- Before its first `pthread_mutex_lock`. -/
  | start
  /-- Has the mutex, before its first `pthread_cond_wait`. -/
  | enter
  /-- Blocked in `pthread_cond_wait`. -/
  | blocked
  /-- Signalled, not yet back from `pthread_cond_wait`. -/
  | woken
  /-- Has the mutex, at the test of the inner loop. -/
  | loop
  /-- Asks for the name of an address, without the mutex. -/
  | resolving (addr : AddrStorage)
  deriving DecidableEq

/-- Where a call of `resolve` is. -/
inductive CallerPc where
  /-- No call. -/
  | idle
  /-- Has the mutex. -/
  | locked (raddr : AddrStorage)
  /-- Has queued an address and unlocked, before `pthread_cond_signal`. -/
  | signal
  deriving DecidableEq

/-- Owner of the mutex. -/
inductive Owner where
  | worker (w : Fin 2)
  | caller (c : ℕ)
  deriving DecidableEq

/-- The resolver with all threads that use it. -/
structure Threads where
  /-- Globals of the resolver. -/
  resolver : ResolverState
  /-- `resolver_queue_mutex`. -/
  mutex : Option Owner
  /-- The two workers. -/
  workers : Fin 2→WorkerPc
  /-- Any number of callers. -/
  callers : ℕ→CallerPc

/-- State after `resolver_initialise`, which starts the workers. -/
def initThreads : Threads := ⟨resolverInitialise,none,fun _ => .start,fun _ => .idle⟩

/-- What a thread can do next. -/
inductive Action where
  | lock (c : ℕ) (raddr : AddrStorage)
  | body (c : ℕ)
  | signal (c : ℕ) (w : Fin 2)
  | start (w : Fin 2)
  | wait (w : Fin 2)
  | wake (w : Fin 2)
  | take (w : Fin 2)
  | store (w : Fin 2) (hostname : Option (List Char))

/-- Move a worker. -/
def Threads.setWorker (s : Threads) (w : Fin 2) (pc : WorkerPc) : Threads :=
  {s with workers := Function.update s.workers w pc}

/-- Move a caller. -/
def Threads.setCaller (s : Threads) (c : ℕ) (pc : CallerPc) : Threads :=
  {s with callers := Function.update s.callers c pc}

variable (inetNtop : AddressFamily→In6Addr→List Char)

/-- The effect of an action, or `none` when it is not enabled. The argument `w`
of a signal is the worker it wakes; it is arbitrary when none is blocked. -/
def next (s : Threads) : Action→Option Threads
  | .lock c raddr =>
    if s.mutex=none ∧ s.callers c=.idle then
      some ({s with mutex := some (.caller c)}.setCaller c (.locked raddr))
    else none
  | .body c =>
    match s.callers c with
    | .locked raddr =>
      let report := resolveLocked inetNtop raddr s.resolver
      some ({s with resolver := report.state,mutex := none}.setCaller c
        (if report.added then .signal else .idle))
    | _ => none
  | .signal c w =>
    if s.callers c=.signal then
      if s.workers w=.blocked then some ((s.setWorker w .woken).setCaller c .idle)
      else if ∀ v,s.workers v≠.blocked then some (s.setCaller c .idle)
      else none
    else none
  | .start w =>
    if s.mutex=none ∧ s.workers w=.start then
      some ({s with mutex := some (.worker w)}.setWorker w .enter)
    else none
  | .wait w =>
    if s.workers w=.enter ∨ (s.workers w=.loop ∧ s.resolver.queue.head=s.resolver.queue.tail) then
      some ({s with mutex := none}.setWorker w .blocked)
    else none
  | .wake w =>
    if s.mutex=none ∧ s.workers w=.woken then
      some ({s with mutex := some (.worker w)}.setWorker w .loop)
    else none
  | .take w =>
    if s.workers w=.loop ∧ s.resolver.queue.head≠s.resolver.queue.tail then
      match takeAddress s.resolver with
      | (some addr,resolver) =>
        some ({s with resolver := resolver,mutex := none}.setWorker w (.resolving addr))
      | (none,_) => none
    else none
  | .store w hostname =>
    match s.workers w with
    | .resolving addr =>
      if s.mutex=none then
        some ({s with
          resolver := storeName addr hostname s.resolver
          mutex := some (.worker w)}.setWorker w .loop)
      else none
    | _ => none

/-- There is work in the queue. -/
def Pending (s : Threads) : Prop := s.resolver.queue.head≠s.resolver.queue.tail

instance (s : Threads) : Decidable (Pending s) :=
  inferInstanceAs (Decidable (s.resolver.queue.head≠s.resolver.queue.tail))

/-- Some call is between its enqueue and its signal. -/
def Signalling (s : Threads) : Prop := ∃ c,s.callers c=.signal

/-- Work in the queue, both workers blocked and nobody about to signal. -/
def LostWakeup (s : Threads) : Prop :=
  Pending s ∧ (∀ w,s.workers w=.blocked) ∧ ¬Signalling s

/-- The worker has not yet reached its first wait. -/
def WorkerPc.Early (pc : WorkerPc) : Prop := pc=.start ∨ pc=.enter

/-- The worker will look at the queue before it waits again. -/
def WorkerPc.Active (pc : WorkerPc) : Prop := ¬pc.Early ∧ pc≠.blocked

/-- The last signal that is due, sent before any worker has reached its first wait. -/
def SentTooEarly (s : Threads) : Action→Prop
  | .signal c _ => (∀ w,(s.workers w).Early) ∧ ∀ c'≠c,s.callers c'≠.signal
  | _ => False

/-- Guard and result of every action. -/
def Moved (s s' : Threads) : Action→Prop
  | .lock c raddr => s.mutex=none ∧ s.callers c=.idle ∧
      s'={s with mutex := some (.caller c)}.setCaller c (.locked raddr)
  | .body c => ∃ raddr,s.callers c=.locked raddr ∧
      s'={s with resolver := (resolveLocked inetNtop raddr s.resolver).state,mutex := none}.setCaller
        c (if (resolveLocked inetNtop raddr s.resolver).added then .signal else .idle)
  | .signal c w => s.callers c=.signal ∧
      (s.workers w=.blocked ∧ s'=(s.setWorker w .woken).setCaller c .idle ∨
        (∀ v,s.workers v≠.blocked) ∧ s'=s.setCaller c .idle)
  | .start w => s.mutex=none ∧ s.workers w=.start ∧
      s'={s with mutex := some (.worker w)}.setWorker w .enter
  | .wait w => (s.workers w=.enter ∨ (s.workers w=.loop ∧ ¬Pending s)) ∧
      s'={s with mutex := none}.setWorker w .blocked
  | .wake w => s.mutex=none ∧ s.workers w=.woken ∧
      s'={s with mutex := some (.worker w)}.setWorker w .loop
  | .take w => s.workers w=.loop ∧ ∃ addr,
      s'={s with resolver := (takeAddress s.resolver).2,mutex := none}.setWorker w (.resolving addr)
  | .store w hostname => ∃ addr,s.workers w=.resolving addr ∧ s.mutex=none ∧
      s'={s with
        resolver := storeName addr hostname s.resolver
        mutex := some (.worker w)}.setWorker w .loop

variable {inetNtop} {s s' : Threads} {a : Action}

/-- An action that is enabled does what its case says. -/
theorem moved_of_next (h : next inetNtop s a=some s') : Moved inetNtop s s' a := by
  cases a with
  | lock c raddr =>
    simp only [next,Option.ite_none_right_eq_some,Option.some.injEq] at h
    exact ⟨h.1.1,h.1.2,h.2.symm⟩
  | body c =>
    simp only [next] at h
    split at h
    · rename_i raddr hc
      exact ⟨raddr,hc,(Option.some.inj h).symm⟩
    · simp at h
  | signal c w =>
    simp only [next,Option.ite_none_right_eq_some] at h
    refine ⟨h.1,?_⟩
    obtain ⟨-,h⟩ := h
    split at h
    · rename_i hw
      exact .inl ⟨hw,(Option.some.inj h).symm⟩
    · rw [Option.ite_none_right_eq_some] at h
      exact .inr ⟨h.1,(Option.some.inj h.2).symm⟩
  | start w =>
    simp only [next,Option.ite_none_right_eq_some,Option.some.injEq] at h
    exact ⟨h.1.1,h.1.2,h.2.symm⟩
  | wait w =>
    simp only [next,Option.ite_none_right_eq_some,Option.some.injEq] at h
    exact ⟨h.1.imp_right (And.imp_right not_not.mpr),h.2.symm⟩
  | wake w =>
    simp only [next,Option.ite_none_right_eq_some,Option.some.injEq] at h
    exact ⟨h.1.1,h.1.2,h.2.symm⟩
  | take w =>
    simp only [next,Option.ite_none_right_eq_some] at h
    refine ⟨h.1.1,?_⟩
    obtain ⟨-,h⟩ := h
    split at h
    · rename_i addr resolver ht
      refine ⟨addr,?_⟩
      rw [ht]
      exact (Option.some.inj h).symm
    · simp at h
  | store w hostname =>
    simp only [next] at h
    split at h
    · rename_i addr hw
      rw [Option.ite_none_right_eq_some] at h
      exact ⟨addr,hw,h.1,(Option.some.inj h.2).symm⟩
    · simp at h

/-- A call either queues its address or leaves the queue alone. -/
theorem resolveLocked_queue (inetNtop : AddressFamily→In6Addr→List Char) (raddr : AddrStorage)
    (r : ResolverState) :
    let report := resolveLocked inetNtop raddr r
    report.added=false ∧ report.state.queue=r.queue ∨
      report.added=true ∧ report.state.queue.head≠report.state.queue.tail := by
  intro report
  by_cases hc : raddr∈cached r
  · obtain ⟨hadd,hst⟩ := resolveLocked_cached inetNtop hc
    exact .inl ⟨hadd,congrArg ResolverState.queue hst⟩
  · obtain ⟨-,-,hq⟩ := resolveLocked_new inetNtop hc
    rcases hq with hq|⟨hadd,hfull,-,hq⟩
    · exact .inl hq
    · refine .inr ⟨hadd,?_⟩
      change (resolveLocked inetNtop raddr r).state.queue.head≠
        (resolveLocked inetNtop raddr r).state.queue.tail
      rw [hq]
      intro he
      have hnil := content_eq_nil_iff.mpr he
      rw [content_push raddr hfull] at hnil
      simp at hnil

/-- Work in the queue has a signal coming or a worker that will look. -/
def Attended (s : Threads) : Prop := Pending s→Signalling s ∨ ∃ w,(s.workers w).Active

/-- A worker that has just moved is where it moved to. -/
theorem worker_moved (s : Threads) (w : Fin 2) (pc : WorkerPc) : (s.setWorker w pc).workers w=pc :=
  Function.update_self ..

/-- Moving a worker that was not active keeps the active ones. -/
theorem active_setWorker {w v : Fin 2} {pc : WorkerPc} (hw : ¬(s.workers w).Active)
    (hv : (s.workers v).Active) : ((s.setWorker w pc).workers v).Active := by
  have hne : v≠w := by
    rintro rfl
    exact hw hv
  rw [Threads.setWorker]
  change (Function.update s.workers w pc v).Active
  rwa [Function.update_of_ne hne]

/-- Moving a caller that was not about to signal keeps the signals that are due. -/
theorem signalling_setCaller {c : ℕ} {pc : CallerPc} (hc : s.callers c≠.signal)
    (h : Signalling s) : Signalling (s.setCaller c pc) := by
  obtain ⟨d,hd⟩ := h
  have hne : d≠c := by
    rintro rfl
    exact hc hd
  refine ⟨d,?_⟩
  change Function.update s.callers c pc d=_
  rwa [Function.update_of_ne hne]

/-- The signals that are due after a caller has moved to a place without one. -/
theorem signalling_moved {c : ℕ} {pc : CallerPc} (hpc : pc≠.signal)
    (h : Signalling (s.setCaller c pc)) : ∃ d≠c,s.callers d=.signal := by
  obtain ⟨d,hd⟩ := h
  change Function.update s.callers c pc d=_ at hd
  by_cases hdc : d=c
  · rw [hdc,Function.update_self] at hd
    exact absurd hd hpc
  · rw [Function.update_of_ne hdc] at hd
    exact ⟨d,hdc,hd⟩

/-- A worker is on its way to its first wait, blocked or active. -/
theorem early_or_blocked_or_active (pc : WorkerPc) : pc.Early ∨ pc=.blocked ∨ pc.Active := by
  by_cases he : pc.Early
  · exact .inl he
  · by_cases hb : pc=.blocked
    · exact .inr (.inl hb)
    · exact .inr (.inr ⟨he,hb⟩)

/-- A worker that moves to a place from where it will look attends the queue. -/
theorem attended_setWorker (w : Fin 2) {pc : WorkerPc} (h : pc.Active) :
    Attended (s.setWorker w pc) := by
  intro _
  refine .inr ⟨w,?_⟩
  rwa [worker_moved]

/-- A signal that no worker hears leaves the queue attended, unless it was sent too early. -/
theorem attended_unheard {c : ℕ} {w : Fin 2} (hg : ¬SentTooEarly s (.signal c w))
    (hb : ∀ v,s.workers v≠.blocked) : Attended (s.setCaller c .idle) := by
  intro _
  by_cases hact : ∃ w,(s.workers w).Active
  · exact .inr hact
  · -- all workers are early, so another signal must be due
    have hearly : ∀ w,(s.workers w).Early := by
      intro v
      rcases early_or_blocked_or_active (s.workers v) with he|he|he
      · exact he
      · exact absurd he (hb v)
      · exact absurd ⟨v,he⟩ hact
    have hother : ¬∀ c'≠c,s.callers c'≠.signal := fun hall => hg ⟨hearly,hall⟩
    simp only [not_forall,not_not] at hother
    obtain ⟨e,hne,he⟩ := hother
    refine .inl ⟨e,?_⟩
    change Function.update s.callers c .idle e=_
    rwa [Function.update_of_ne hne]

/-- Every action keeps the queue attended, unless it is a signal sent too early. -/
theorem attended_step (h : Attended s) (hg : ¬SentTooEarly s a) (hn : next inetNtop s a=some s') :
    Attended s' := by
  have hm := moved_of_next hn
  cases a with
  | lock c raddr =>
    obtain ⟨-,hc,rfl⟩ := hm
    intro hp
    refine (h hp).imp_left fun hs => ?_
    exact signalling_setCaller (s:={s with mutex := some (.caller c)}) (by simp [hc]) hs
  | body c =>
    obtain ⟨raddr,hc,rfl⟩ := hm
    intro hp
    rcases resolveLocked_queue inetNtop raddr s.resolver with ⟨hadd,hq⟩|⟨hadd,-⟩
    · have hp₀ : Pending s := by
        unfold Pending at hp ⊢
        rw [←hq]
        exact hp
      rw [hadd]
      refine (h hp₀).imp_left fun hs => ?_
      exact signalling_setCaller
        (s:={s with resolver := (resolveLocked inetNtop raddr s.resolver).state,mutex := none})
        (by simp [hc]) hs
    · rw [hadd]
      exact .inl ⟨c,Function.update_self ..⟩
  | signal c w =>
    obtain ⟨hc,⟨hw,rfl⟩|⟨hb,rfl⟩⟩ := hm
    · intro _
      refine .inr ⟨w,?_⟩
      change ((s.setWorker w .woken).workers w).Active
      rw [worker_moved]
      simp [WorkerPc.Active,WorkerPc.Early]
    · exact attended_unheard hg hb
  | start w =>
    obtain ⟨-,hw,rfl⟩ := hm
    intro hp
    refine (h hp).imp_right fun ⟨v,hv⟩ => ⟨v,?_⟩
    exact active_setWorker (s:={s with mutex := some (.worker w)})
      (by simp [hw,WorkerPc.Active,WorkerPc.Early]) hv
  | wait w =>
    obtain ⟨hw,rfl⟩ := hm
    intro hp
    rcases hw with hw|⟨-,hnp⟩
    · refine (h hp).imp_right fun ⟨v,hv⟩ => ⟨v,?_⟩
      exact active_setWorker (s:={s with mutex := none})
        (by simp [hw,WorkerPc.Active,WorkerPc.Early]) hv
    · exact absurd hp hnp
  | wake w =>
    obtain ⟨-,-,rfl⟩ := hm
    exact attended_setWorker w (by simp [WorkerPc.Active,WorkerPc.Early])
  | take w =>
    obtain ⟨-,addr,rfl⟩ := hm
    exact attended_setWorker w (by simp [WorkerPc.Active,WorkerPc.Early])
  | store w hostname =>
    obtain ⟨addr,-,-,rfl⟩ := hm
    exact attended_setWorker w (by simp [WorkerPc.Active,WorkerPc.Early])

/-- A queue that is attended has no lost wakeup. -/
theorem Attended.not_lost (h : Attended s) : ¬LostWakeup s := by
  rintro ⟨hp,hb,hs⟩
  rcases h hp with hs'|⟨w,hw⟩
  · exact hs hs'
  · exact hw.2 (hb w)

/-- At the start nothing is queued, so there is nothing to attend to. -/
theorem attended_init : Attended initThreads := fun hp => absurd rfl hp

/-- Threads inside a section under the mutex. -/
def InSection (s : Threads) : Owner→Prop
  | .worker w => s.workers w=.enter ∨ s.workers w=.loop
  | .caller c => ∃ raddr,s.callers c=.locked raddr

/-- The owner of the mutex is the one thread inside a section. -/
def MutexOk (s : Threads) : Prop := ∀ o,s.mutex=some o ↔ InSection s o

/-- Sections after a worker has moved. -/
theorem inSection_setWorker (s : Threads) (w : Fin 2) (pc : WorkerPc) (o : Owner) :
    InSection (s.setWorker w pc) o ↔
      if o=.worker w then pc=.enter ∨ pc=.loop else InSection s o := by
  cases o with
  | worker v =>
    by_cases hv : v=w
    · subst hv
      simp [InSection,worker_moved]
    · simp [InSection,Threads.setWorker,hv]
  | caller c => simp [InSection,Threads.setWorker]

/-- Sections after a caller has moved. -/
theorem inSection_setCaller (s : Threads) (c : ℕ) (pc : CallerPc) (o : Owner) :
    InSection (s.setCaller c pc) o ↔
      if o=.caller c then (∃ raddr,pc=.locked raddr) else InSection s o := by
  cases o with
  | worker v => simp [InSection,Threads.setCaller]
  | caller d =>
    by_cases hd : d=c
    · subst hd
      simp [InSection,Threads.setCaller]
    · simp [InSection,Threads.setCaller,hd]

/-- With a free mutex no thread is in a section. -/
theorem MutexOk.of_none (h : MutexOk s) (hm : s.mutex=none) (o : Owner) : ¬InSection s o := by
  rw [←h o,hm]
  simp

/-- With a thread in a section, no other is. -/
theorem MutexOk.unique (h : MutexOk s) {o o' : Owner} (ho : InSection s o) (ho' : InSection s o') :
    o'=o := by
  have h₁ := (h o).mpr ho
  have h₂ := (h o').mpr ho'
  exact Option.some.inj (h₂.symm.trans h₁)

/-- A thread takes a free mutex and enters a section. -/
theorem MutexOk.acquire {t : Threads} {o : Owner} (h : MutexOk s) (hm : s.mutex=none)
    (ht : t.mutex=some o) (ho : InSection t o)
    (hs : ∀ o'≠o,InSection t o' ↔ InSection s o') : MutexOk t := by
  intro o'
  rw [ht,Option.some.injEq]
  by_cases he : o'=o
  · rw [he]
    exact ⟨fun _ => ho,fun _ => rfl⟩
  · rw [hs o' he]
    exact ⟨fun h' => absurd h'.symm he,fun h' => absurd h' (h.of_none hm o')⟩

/-- A thread leaves its section and gives the mutex up. -/
theorem MutexOk.release {t : Threads} {o : Owner} (h : MutexOk s) (ho : InSection s o)
    (ht : t.mutex=none) (hout : ¬InSection t o)
    (hs : ∀ o'≠o,InSection t o' ↔ InSection s o') : MutexOk t := by
  intro o'
  rw [ht]
  by_cases he : o'=o
  · rw [he]
    exact ⟨nofun,fun h' => absurd h' hout⟩
  · rw [hs o' he]
    exact ⟨nofun,fun h' => absurd (h.unique ho h') he⟩

/-- Nothing changes if no thread enters or leaves a section. -/
theorem MutexOk.stay {t : Threads} (h : MutexOk s) (ht : t.mutex=s.mutex)
    (hs : ∀ o,InSection t o ↔ InSection s o) : MutexOk t := by
  intro o
  rw [ht,hs o,h o]

/-- A caller that moves outside the sections. -/
theorem inSection_caller_moves {c : ℕ} {pc : CallerPc} (hc : ∀ raddr,s.callers c≠.locked raddr)
    (hpc : ∀ raddr,pc≠.locked raddr) (o : Owner) :
    InSection (s.setCaller c pc) o ↔ InSection s o := by
  rw [inSection_setCaller]
  by_cases ho : o=.caller c
  · simp [ho,InSection,hc,hpc]
  · rw [if_neg ho]

/-- A worker that moves outside the sections. -/
theorem inSection_worker_moves {w : Fin 2} {pc : WorkerPc}
    (hw : ¬(s.workers w=.enter ∨ s.workers w=.loop)) (hpc : ¬(pc=.enter ∨ pc=.loop)) (o : Owner) :
    InSection (s.setWorker w pc) o ↔ InSection s o := by
  rw [inSection_setWorker]
  by_cases ho : o=.worker w
  · simp [ho,InSection,hw,hpc]
  · rw [if_neg ho]

/-- A worker that takes a free mutex is the only thread inside. -/
theorem MutexOk.enter {t : Threads} {w : Fin 2} {pc : WorkerPc} (h : MutexOk s)
    (hm : s.mutex=none) (ht : t.mutex=some (.worker w)) (hs : ∀ o,InSection t o ↔ InSection s o)
    (hpc : pc=.enter ∨ pc=.loop) : MutexOk (t.setWorker w pc) := by
  refine h.acquire hm ht ?_ fun o ho => ?_
  · rw [inSection_setWorker,if_pos rfl]
    exact hpc
  · rw [inSection_setWorker,if_neg ho,hs o]

/-- After a worker has given the mutex up, no thread is inside. -/
theorem MutexOk.leave {t : Threads} {w : Fin 2} {pc : WorkerPc} (h : MutexOk s)
    (hw : InSection s (.worker w)) (ht : t.mutex=none) (hs : ∀ o,InSection t o ↔ InSection s o)
    (hpc : ¬(pc=.enter ∨ pc=.loop)) : MutexOk (t.setWorker w pc) := by
  refine h.release hw ht ?_ fun o ho => ?_
  · rw [inSection_setWorker,if_pos rfl]
    exact hpc
  · rw [inSection_setWorker,if_neg ho,hs o]

/-- The mutex and the sections agree after every action. -/
theorem mutexOk_step (h : MutexOk s) (hn : next inetNtop s a=some s') : MutexOk s' := by
  have hm := moved_of_next hn
  cases a with
  | lock c raddr =>
    obtain ⟨hfree,-,rfl⟩ := hm
    refine h.acquire hfree rfl ?_ fun o ho => ?_
    · rw [inSection_setCaller,if_pos rfl]
      exact ⟨raddr,rfl⟩
    · rw [inSection_setCaller,if_neg ho]
      cases o <;> rfl
  | body c =>
    obtain ⟨raddr,hc,rfl⟩ := hm
    refine h.release (o:=.caller c) ⟨raddr,hc⟩ rfl ?_ fun o ho => ?_
    · rw [inSection_setCaller,if_pos rfl]
      split <;> simp
    · rw [inSection_setCaller,if_neg ho]
      cases o <;> rfl
  | signal c w =>
    obtain ⟨hc,⟨hw,rfl⟩|⟨-,rfl⟩⟩ := hm
    · refine h.stay rfl fun o => ?_
      have hcaller : ∀ raddr,(s.setWorker w .woken).callers c≠.locked raddr := by
        simp [Threads.setWorker,hc]
      rw [inSection_caller_moves hcaller (by simp),inSection_worker_moves (by simp [hw]) (by simp)]
    · exact h.stay rfl (inSection_caller_moves (by simp [hc]) (by simp))
  | start w =>
    obtain ⟨hfree,-,rfl⟩ := hm
    exact h.enter hfree rfl (fun o => by cases o <;> rfl) (.inl rfl)
  | wait w =>
    obtain ⟨hw,rfl⟩ := hm
    exact h.leave (hw.imp_right And.left) rfl (fun o => by cases o <;> rfl) (by simp)
  | wake w =>
    obtain ⟨hfree,-,rfl⟩ := hm
    exact h.enter hfree rfl (fun o => by cases o <;> rfl) (.inr rfl)
  | take w =>
    obtain ⟨hw,addr,rfl⟩ := hm
    exact h.leave (.inr hw) rfl (fun o => by cases o <;> rfl) (by simp)
  | store w hostname =>
    obtain ⟨addr,-,hfree,rfl⟩ := hm
    exact h.enter hfree rfl (fun o => by cases o <;> rfl) (.inr rfl)

/-- At the start no thread is in a section and the mutex is free. -/
theorem mutexOk_init : MutexOk initThreads := by
  intro o
  cases o <;> simp [initThreads,InSection]

/-- A signal that is due before any worker has waited has its address in the queue. -/
def EarlyPending (s : Threads) : Prop := (∀ w,(s.workers w).Early)→Signalling s→Pending s

/-- Only a worker that has waited takes addresses off the queue. -/
theorem earlyPending_step (h : EarlyPending s) (hn : next inetNtop s a=some s') :
    EarlyPending s' := by
  have hm := moved_of_next hn
  intro he hs
  have hnot {t : Threads} {w : Fin 2} {pc : WorkerPc} (heq : s'=t.setWorker w pc) : pc.Early := by
    have hw := he w
    rwa [heq,worker_moved] at hw
  cases a with
  | lock c raddr =>
    obtain ⟨-,-,rfl⟩ := hm
    obtain ⟨d,-,hd⟩ := signalling_moved (by simp) hs
    exact h he ⟨d,hd⟩
  | body c =>
    obtain ⟨raddr,-,rfl⟩ := hm
    rcases resolveLocked_queue inetNtop raddr s.resolver with ⟨hadd,hq⟩|⟨-,hp⟩
    · obtain ⟨d,-,hd⟩ := signalling_moved (by simp [hadd]) hs
      have hp₀ := h he ⟨d,hd⟩
      unfold Pending at hp₀ ⊢
      rw [←hq] at hp₀
      exact hp₀
    · exact hp
  | signal c w =>
    obtain ⟨hc,⟨-,rfl⟩|⟨-,rfl⟩⟩ := hm
    · have hw : (s.setWorker w .woken).workers w=_ := worker_moved s w .woken
      exact absurd (hw ▸ he w) (by simp [WorkerPc.Early])
    · exact h he ⟨c,hc⟩
  | start w =>
    obtain ⟨-,hw,rfl⟩ := hm
    refine h (fun v => ?_) hs
    by_cases hv : v=w
    · exact .inl (hv ▸ hw)
    · simpa [Threads.setWorker,hv] using he v
  | wait w => exact absurd (hnot hm.2) (by simp [WorkerPc.Early])
  | wake w => exact absurd (hnot hm.2.2) (by simp [WorkerPc.Early])
  | take w =>
    obtain ⟨-,addr,heq⟩ := hm
    exact absurd (hnot heq) (by simp [WorkerPc.Early])
  | store w hostname =>
    obtain ⟨addr,-,-,heq⟩ := hm
    exact absurd (hnot heq) (by simp [WorkerPc.Early])

/-- Work in the queue, no signal due, and every worker blocked or about to start. -/
structure Doomed (s : Threads) : Prop where
  /-- Nobody is in a section. -/
  free : s.mutex=none
  /-- No worker will look at the queue before it waits. -/
  parked : ∀ w,s.workers w=.start ∨ s.workers w=.blocked
  /-- There is work. -/
  pending : Pending s
  /-- Nobody is about to signal. -/
  silent : ¬Signalling s

/-- A worker that starts now goes to sleep. -/
theorem Doomed.park (inetNtop : AddressFamily→In6Addr→List Char) (h : Doomed s) (w : Fin 2) :
    ∃ s',Reaches (next inetNtop) s s' ∧ Doomed s' ∧ s'.workers w=.blocked ∧
      ∀ v,s.workers v=.blocked→s'.workers v=.blocked := by
  rcases h.parked w with hw|hw
  · let s₁ := {s with mutex := some (.worker w)}.setWorker w .enter
    let s₂ := {s₁ with mutex := none}.setWorker w .blocked
    have h₁ : next inetNtop s (.start w)=some s₁ := if_pos ⟨h.free,hw⟩
    have h₂ : next inetNtop s₁ (.wait w)=some s₂ := if_pos (.inl (worker_moved ..))
    have hb : s₂.workers w=.blocked := worker_moved ..
    have hother (v : Fin 2) (hv : v≠w) : s₂.workers v=s.workers v := by
      simp [s₂,s₁,Threads.setWorker,hv]
    refine ⟨s₂,(Reaches.single h₁).trans (Reaches.single h₂),⟨rfl,?_,h.pending,h.silent⟩,hb,?_⟩
    · intro v
      by_cases hv : v=w
      · exact .inr (hv ▸ hb)
      · rw [hother v hv]
        exact h.parked v
    · intro v hv
      by_cases hvw : v=w
      · exact hvw ▸ hb
      · rwa [hother v hvw]
  · exact ⟨s,.init,h,hw,fun _ hv => hv⟩

/-- In a doomed state both workers go to sleep over the work in the queue. -/
theorem Doomed.lost (inetNtop : AddressFamily→In6Addr→List Char) (h : Doomed s) :
    ∃ s',Reaches (next inetNtop) s s' ∧ LostWakeup s' := by
  obtain ⟨s₁,h₁,hd₁,hb₁,-⟩ := h.park inetNtop 0
  obtain ⟨s₂,h₂,hd₂,hb₂,hkeep⟩ := hd₁.park inetNtop 1
  refine ⟨s₂,h₁.trans h₂,hd₂.pending,?_,hd₂.silent⟩
  intro w
  obtain rfl|rfl : w=0 ∨ w=1 := by omega
  · exact hkeep 0 hb₁
  · exact hb₂

/-- Before any worker has waited, one that does not have the mutex has not started. -/
theorem MutexOk.start (hm : MutexOk s) (he : ∀ w,(s.workers w).Early) {w : Fin 2}
    (hw : s.mutex≠some (.worker w)) : s.workers w=.start :=
  (he w).resolve_right fun hent => hw ((hm (.worker w)).mpr (.inl hent))

/-- A worker that has the mutex then goes to sleep. -/
theorem doomed_of_worker (inetNtop : AddressFamily→In6Addr→List Char) (hm : MutexOk s)
    (he : ∀ w,(s.workers w).Early) (hp : Pending s) (hs : ¬Signalling s) {w : Fin 2}
    (hown : s.mutex=some (.worker w)) : ∃ s₁,Reaches (next inetNtop) s s₁ ∧ Doomed s₁ := by
  have hw : s.workers w=.enter := by
    rcases (hm _).mp hown with hw|hw
    · exact hw
    · exact absurd (he w) (by simp [hw,WorkerPc.Early])
  have hn : next inetNtop s (.wait w)=some ({s with mutex := none}.setWorker w .blocked) :=
    if_pos (.inl hw)
  refine ⟨_,Reaches.single hn,rfl,fun v => ?_,hp,hs⟩
  by_cases hv : v=w
  · exact .inr (hv ▸ worker_moved ..)
  · refine .inl ?_
    have hst : s.workers v=.start := hm.start he (by simpa [hown] using Ne.symm hv)
    simpa [Threads.setWorker,hv] using hst

/-- A caller that has the mutex ends its section, and sends a signal that nobody hears if it
has to. -/
theorem doomed_of_caller (inetNtop : AddressFamily→In6Addr→List Char) (hm : MutexOk s)
    (he : ∀ w,(s.workers w).Early) (hp : Pending s) (hs : ¬Signalling s) {c : ℕ}
    (hown : s.mutex=some (.caller c)) : ∃ s₁,Reaches (next inetNtop) s s₁ ∧ Doomed s₁ := by
  have hst (w : Fin 2) : s.workers w=.start := hm.start he (by simp [hown])
  obtain ⟨raddr,hc⟩ := (hm _).mp hown
  let r := resolveLocked inetNtop raddr s.resolver
  let s₁ := {s with resolver := r.state,mutex := none}.setCaller c
    (if r.added then .signal else .idle)
  have h₁ : next inetNtop s (.body c)=some s₁ := by simp only [next,hc,s₁,r]
  have hp₁ : r.state.queue.head≠r.state.queue.tail := by
    rcases resolveLocked_queue inetNtop raddr s.resolver with ⟨-,hq⟩|⟨-,hq⟩
    · rw [hq]
      exact hp
    · exact hq
  cases hadd : r.added with
  | false =>
    refine ⟨s₁,Reaches.single h₁,rfl,fun w => .inl (hst w),hp₁,fun hsig => ?_⟩
    obtain ⟨d,-,hd⟩ := signalling_moved (by simp [hadd]) hsig
    exact hs ⟨d,hd⟩
  | true =>
    have hc₁ : s₁.callers c=.signal := by simp [s₁,Threads.setCaller,hadd]
    have hb (w : Fin 2) : s₁.workers w≠.blocked := by
      change s.workers w≠_
      simp [hst w]
    have h₂ : next inetNtop s₁ (.signal c 0)=some (s₁.setCaller c .idle) := by
      simp only [next,hc₁,if_true,hb 0,if_false]
      exact if_pos hb
    refine ⟨_,(Reaches.single h₁).trans (Reaches.single h₂),rfl,fun w => .inl (hst w),hp₁,
      fun hsig => ?_⟩
    obtain ⟨d,hdc,hd⟩ := signalling_moved (by simp) hsig
    exact hs ⟨d,by simpa [s₁,Threads.setCaller,hdc] using hd⟩

/-- A silent queue with work in it, before any worker has waited: whoever has the
mutex finishes its section, and both workers go to sleep. -/
theorem lost_of_early (inetNtop : AddressFamily→In6Addr→List Char) (hm : MutexOk s)
    (he : ∀ w,(s.workers w).Early) (hp : Pending s) (hs : ¬Signalling s) :
    ∃ s',Reaches (next inetNtop) s s' ∧ LostWakeup s' := by
  have hdoomed : ∃ s₁,Reaches (next inetNtop) s s₁ ∧ Doomed s₁ := by
    cases hown : s.mutex with
    | none => exact ⟨s,.init,hown,fun w => .inl (hm.start he (by simp [hown])),hp,hs⟩
    | some o =>
      cases o with
      | worker w => exact doomed_of_worker inetNtop hm he hp hs hown
      | caller c => exact doomed_of_caller inetNtop hm he hp hs hown
  obtain ⟨s₁,h₁,hd⟩ := hdoomed
  obtain ⟨s₂,h₂,hl⟩ := hd.lost inetNtop
  exact ⟨s₂,h₁.trans h₂,hl⟩

/-- As long as no last signal is sent before the first wait of a worker, no wakeup
is lost; and every such signal can be followed by a lost wakeup. -/
theorem no_lost_wakeup_iff_timely (inetNtop : AddressFamily→In6Addr→List Char) :
    (∀ s,Run (next inetNtop) (fun s a => ¬SentTooEarly s a) initThreads s→¬LostWakeup s) ∧
      ∀ s a s',Reaches (next inetNtop) initThreads s→SentTooEarly s a→
        next inetNtop s a=some s'→∃ s'',Reaches (next inetNtop) s' s'' ∧ LostWakeup s'' := by
  constructor
  · intro s hs
    exact (hs.invariant attended_init fun _ _ _ h hg hn => attended_step h hg hn).not_lost
  · intro s a s' hs hearly hn
    have hm : MutexOk s := hs.invariant mutexOk_init fun _ _ _ h _ hn => mutexOk_step h hn
    have hp : EarlyPending s :=
      hs.invariant (fun _ hsig => absurd hsig (by simp [Signalling,initThreads]))
        fun _ _ _ h _ hn => earlyPending_step h hn
    cases a with
    | signal c w =>
      obtain ⟨he,hothers⟩ := hearly
      obtain ⟨hc,⟨hb,-⟩|⟨-,rfl⟩⟩ := moved_of_next hn
      · exact absurd (he w) (by simp [hb,WorkerPc.Early])
      · refine lost_of_early inetNtop (mutexOk_step hm hn) he (hp he ⟨c,hc⟩) fun hsig => ?_
        obtain ⟨d,hdc,hd⟩ := signalling_moved (by simp) hsig
        exact hothers d hdc hd
    | _ => exact hearly.elim

/-- The first call of `resolve` is over before either worker has locked the mutex. -/
def startupRun : List Action :=
  let calls : List Action :=
    [.lock 0 (AddrStorage.make .inet fun j => [192,0,2,1].getD j 0),.body 0,.signal 0 (Fin.last 1)]
  calls++(List.finRange 2).flatMap fun w => [.start w,.wait w]

/-- After the run both workers sleep, and nobody resolves the address. -/
theorem startup_wakeup_lost :
    ∃ s,startupRun.foldlM (next fun _ _ => "192.0.2.1".toList) initThreads=some s ∧
      Reaches (next fun _ _ => "192.0.2.1".toList) initThreads s ∧ LostWakeup s := by
  have hrun : ∃ s,startupRun.foldlM (next fun _ _ => "192.0.2.1".toList) initThreads=some s ∧
      LostWakeup s := by
    refine ⟨_,rfl,by decide,by decide,?_⟩
    rintro ⟨c,hc⟩
    simp [Threads.setCaller,Threads.setWorker,initThreads] at hc
  obtain ⟨s,hs,hl⟩ := hrun
  exact ⟨s,hs,Reaches.of_foldlM hs,hl⟩

end IftopColor.ResolverWakeup
