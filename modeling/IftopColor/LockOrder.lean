import IftopColor.GuardedRun
import Mathlib.Algebra.BigOperators.Group.Finset.Basic
import Mathlib.Algebra.Order.BigOperators.Group.Finset
import Mathlib.Data.Finset.Max
import Mathlib.Data.Fintype.Basic
import Mathlib.Data.List.Nodup
import Mathlib.Tactic.Linarith

/-!
# Locks that are taken in order

Threads run code that takes and releases locks; a lock that is held is waited for, also by the
thread that holds it. When locks have ranks and every thread only takes locks of a higher rank
than those it holds, no thread waits for good: whatever has been called can be run to its end. A
thread that calls for a lock it holds waits for itself, and the lock is never released again.
-/

namespace IftopColor.LockOrder

open GuardedRun

variable {Thread Lock : Type}

/-- What code does to locks. -/
inductive Op (Lock : Type) where
  | lock (l : Lock)
  | unlock (l : Lock)

/-- Threads and locks. -/
structure State (Thread Lock : Type) where
  /-- The thread that holds a lock. -/
  holder : Lock→Option Thread
  /-- What a thread has still to do. -/
  code : Thread→List (Op Lock)

/-- Nothing is called and nothing is held. -/
def State.init : State Thread Lock := ⟨fun _ => none,fun _ => []⟩

/-- What threads can do next. -/
inductive Action (Thread Lock : Type) where
  /-- The thread runs some code before it goes on. -/
  | call (t : Thread) (code : List (Op Lock))
  /-- The thread goes on. -/
  | step (t : Thread)

section Steps

variable [DecidableEq Thread] [DecidableEq Lock]

/-- A thread takes or releases a lock; without a free lock it cannot go on. -/
def step (s : State Thread Lock) (t : Thread) : Option (State Thread Lock) :=
  match s.code t with
  | [] => none
  | .lock l::code =>
    if s.holder l=none then
      some ⟨Function.update s.holder l (some t),Function.update s.code t code⟩
    else none
  | .unlock l::code => some ⟨Function.update s.holder l none,Function.update s.code t code⟩

/-- The code of a call comes first. -/
def State.call (s : State Thread Lock) (t : Thread) (code : List (Op Lock)) : State Thread Lock :=
  {s with code := Function.update s.code t (code++s.code t)}

/-- The effect of an action, or `none` when it is not enabled. -/
def next (s : State Thread Lock) : Action Thread Lock→Option (State Thread Lock)
  | .call t code => some (s.call t code)
  | .step t => step s t

end Steps

/-- Code that begins with some locks held, takes every lock above those it holds, releases only
what it holds and ends with nothing. -/
def Disciplined [DecidableEq Lock] (below : Lock→Lock→Prop) : List Lock→List (Op Lock)→Prop
  | held,[] => held=[]
  | held,.lock l::code => (∀ k∈held,below k l) ∧ Disciplined below (l::held) code
  | held,.unlock l::code => l∈held ∧ Disciplined below (held.erase l) code

/-- Every thread holds the locks that its code takes as held. -/
structure Ordered [DecidableEq Lock] (below : Lock→Lock→Prop) (s : State Thread Lock)
    (held : Thread→List Lock) : Prop where
  /-- What a thread holds. -/
  holds : ∀ t l,s.holder l=some t ↔ l∈held t
  /-- Nothing is held twice. -/
  nodup : ∀ t,(held t).Nodup
  /-- The code fits. -/
  code : ∀ t,Disciplined below (held t) (s.code t)

/-- Calls of code that begins and ends without locks, by threads whose locks are below those that
it takes. -/
def Orderly [DecidableEq Lock] (below : Lock→Lock→Prop) (s : State Thread Lock) :
    Action Thread Lock→Prop
  | .call t code => Disciplined below [] code ∧ ∀ l,s.holder l=some t → ∀ k,.lock k∈code → below l k
  | .step _ => True

/-- Code that comes to take a lock before it releases it. -/
def Retakes (l : Lock) : List (Op Lock)→Prop
  | [] => False
  | .lock k::code => k=l ∨ Retakes l code
  | .unlock k::code => k≠l ∧ Retakes l code

variable {below : Lock→Lock→Prop} {s s' : State Thread Lock} {held : Thread→List Lock} {t : Thread}
  {l : Lock}

/-- Code that takes a lock before it releases it still does with more code behind it. -/
theorem Retakes.append {code : List (Op Lock)} (h : Retakes l code) (rest : List (Op Lock)) :
    Retakes l (code++rest) := by
  induction code with
  | nil => exact h.elim
  | cons op code ih =>
    cases op with
    | lock k => exact h.imp id ih
    | unlock k => exact ⟨h.1,ih h.2⟩

/-- How many locks are still to be taken and released. -/
def remaining [Fintype Thread] (s : State Thread Lock) : ℕ := ∑ t,(s.code t).length

/-- Nothing remains when no thread has anything to do. -/
theorem remaining_eq_zero [Fintype Thread] : remaining s=0 ↔ ∀ t,s.code t=[] := by
  rw [remaining,Finset.sum_eq_zero_iff]
  simp

variable [DecidableEq Lock]

/-- Code in front of code is disciplined if it takes only locks below those still held. -/
theorem Disciplined.append {code rest : List (Op Lock)} {locks base : List Lock}
    (h : Disciplined below locks code) (hr : Disciplined below base rest)
    (hb : ∀ k∈base,∀ l,.lock l∈code → below k l) : Disciplined below (locks++base) (code++rest) := by
  induction code generalizing locks with
  | nil =>
    have hnil : locks=[] := h
    rw [hnil]
    exact hr
  | cons op code ih =>
    have hb' : ∀ k∈base,∀ l,.lock l∈code → below k l := fun k hk l hl =>
      hb k hk l (List.mem_cons_of_mem _ hl)
    cases op with
    | lock l =>
      refine ⟨?_,ih h.2 hb'⟩
      intro k hk
      rcases List.mem_append.mp hk with hk|hk
      · exact h.1 k hk
      · exact hb k hk l List.mem_cons_self
    | unlock l =>
      refine ⟨List.mem_append_left _ h.1,?_⟩
      rw [List.erase_append_left _ h.1]
      exact ih h.2 hb'

/-- Code in front of code that retakes a lock. -/
theorem Disciplined.retakes {code rest : List (Op Lock)} {locks : List Lock}
    (h : Disciplined below locks code) (hl : l∉locks) (hr : Retakes l rest) :
    Retakes l (code++rest) := by
  induction code generalizing locks with
  | nil => exact hr
  | cons op code ih =>
    cases op with
    | lock k =>
      by_cases hk : k=l
      · exact .inl hk
      · exact .inr (ih h.2 (by simp [Ne.symm hk,hl]))
    | unlock k =>
      have hk : k≠l := fun hkl => hl (hkl ▸ h.1)
      exact ⟨hk,ih h.2 fun hm => hl (List.mem_of_mem_erase hm)⟩

/-- At the start no thread holds a lock. -/
theorem ordered_init : Ordered below (State.init : State Thread Lock) fun _ => [] where
  holds := fun _ _ => ⟨nofun,nofun⟩
  nodup := fun _ => List.nodup_nil
  code := fun _ => rfl

/-- A thread that holds a lock has something to do. -/
theorem Ordered.code_ne_nil (h : Ordered below s held) (hl : s.holder l=some t) : s.code t≠[] := by
  intro hnil
  have hcode := h.code t
  rw [hnil] at hcode
  have hempty : held t=[] := hcode
  have hmem := (h.holds t l).mp hl
  rw [hempty] at hmem
  exact List.not_mem_nil hmem

/-- Without anything to do nothing is held. -/
theorem Ordered.free (h : Ordered below s held) (hs : ∀ t,s.code t=[]) (l : Lock) :
    s.holder l=none := by
  cases hl : s.holder l with
  | none => rfl
  | some t => exact absurd (hs t) (h.code_ne_nil hl)

/-- The lock a thread waits for is above those it holds. -/
theorem Ordered.waits_above (h : Ordered below s held) {k : Lock} {code : List (Op Lock)}
    (hl : s.holder l=some t) (hcode : s.code t=.lock k::code) : below l k := by
  have hc := h.code t
  rw [hcode] at hc
  exact hc.1 l ((h.holds t l).mp hl)

section Actions

variable [DecidableEq Thread]

/-- A call of disciplined code keeps the order. -/
theorem Ordered.call (h : Ordered below s held) {code : List (Op Lock)}
    (hc : Disciplined below [] code)
    (hb : ∀ l,s.holder l=some t → ∀ k,.lock k∈code → below l k) :
    Ordered below (s.call t code) held where
  holds := h.holds
  nodup := h.nodup
  code := by
    intro t'
    show Disciplined below (held t') (Function.update s.code t (code++s.code t) t')
    by_cases ht : t'=t
    · rw [ht,Function.update_self]
      exact hc.append (h.code t) fun l hl => hb l ((h.holds t l).mpr hl)
    · rw [Function.update_of_ne ht]
      exact h.code t'

/-- A step takes a free lock or releases one, and goes on in the code of its thread. -/
theorem step_eq (h : step s t=some s') :
    (∃ l code,s.code t=.lock l::code ∧ s.holder l=none ∧
      s'=⟨Function.update s.holder l (some t),Function.update s.code t code⟩) ∨
    (∃ l code,s.code t=.unlock l::code ∧
      s'=⟨Function.update s.holder l none,Function.update s.code t code⟩) := by
  unfold step at h
  split at h
  · cases h
  · rename_i l code hcode
    by_cases hl : s.holder l=none
    · rw [if_pos hl] at h
      exact .inl ⟨l,code,hcode,hl,(Option.some.inj h).symm⟩
    · rw [if_neg hl] at h
      cases h
  · rename_i l code hcode
    exact .inr ⟨l,code,hcode,(Option.some.inj h).symm⟩

/-- A thread that cannot go on waits for a lock. -/
theorem step_none (hs : step s t=none) (hc : s.code t≠[]) :
    ∃ l code t',s.code t=.lock l::code ∧ s.holder l=some t' := by
  unfold step at hs
  split at hs
  · rename_i hcode
    exact absurd hcode hc
  · rename_i l code hcode
    cases hl : s.holder l with
    | none =>
      rw [if_pos hl] at hs
      cases hs
    | some t' => exact ⟨l,code,t',hcode,hl⟩
  · cases hs

/-- A step of one thread keeps the code of every thread disciplined by the locks it holds. -/
theorem Ordered.code_update (h : Ordered below s held) {code : List (Op Lock)} {locks : List Lock}
    (hc : Disciplined below locks code) (t' : Thread) :
    Disciplined below (Function.update held t locks t') (Function.update s.code t code t') := by
  by_cases ht : t'=t
  · rw [ht,Function.update_self,Function.update_self]
    exact hc
  · rw [Function.update_of_ne ht,Function.update_of_ne ht]
    exact h.code t'

/-- After a lock is taken, its thread holds it above the others. -/
theorem Ordered.lock (h : Ordered below s held) {code : List (Op Lock)}
    (hcode : s.code t=.lock l::code) (hl : s.holder l=none) :
    Ordered below ⟨Function.update s.holder l (some t),Function.update s.code t code⟩
      (Function.update held t (l::held t)) := by
  have hc := h.code t
  rw [hcode] at hc
  have hnot : ∀ t',l∉held t' := by
    intro t' hm
    have hh := (h.holds t' l).mpr hm
    rw [hl] at hh
    cases hh
  refine ⟨?_,?_,h.code_update hc.2⟩
  · intro t' k
    show Function.update s.holder l (some t) k=some t' ↔ k∈Function.update held t (l::held t) t'
    have hold := h.holds t' k
    by_cases hk : k=l
    · have hno := hnot t'
      by_cases ht : t'=t
      · rw [ht,hk,Function.update_self,Function.update_self]
        simp
      · rw [hk,Function.update_self,Function.update_of_ne ht]
        simp [hno,Ne.symm ht]
    · rw [Function.update_of_ne hk]
      by_cases ht : t'=t
      · rw [ht] at hold ⊢
        rw [Function.update_self,hold]
        simp [hk]
      · rw [Function.update_of_ne ht]
        exact hold
  · intro t'
    by_cases ht : t'=t
    · rw [ht,Function.update_self]
      exact List.nodup_cons.mpr ⟨hnot t,h.nodup t⟩
    · rw [Function.update_of_ne ht]
      exact h.nodup t'

/-- After a lock is released, its thread holds the others. -/
theorem Ordered.unlock (h : Ordered below s held) {code : List (Op Lock)}
    (hcode : s.code t=.unlock l::code) :
    Ordered below ⟨Function.update s.holder l none,Function.update s.code t code⟩
      (Function.update held t ((held t).erase l)) := by
  have hc := h.code t
  rw [hcode] at hc
  have hh : s.holder l=some t := (h.holds t l).mpr hc.1
  refine ⟨?_,?_,h.code_update hc.2⟩
  · intro t' k
    show Function.update s.holder l none k=some t' ↔
      k∈Function.update held t ((held t).erase l) t'
    have hold := h.holds t' k
    by_cases hk : k=l
    · by_cases ht : t'=t
      · rw [ht,hk,Function.update_self,Function.update_self]
        simp [(h.nodup t).mem_erase_iff]
      · have hno : l∉held t' := by
          intro hm
          have hother := (h.holds t' l).mpr hm
          rw [hh] at hother
          exact ht (Option.some.inj hother).symm
        rw [hk,Function.update_self,Function.update_of_ne ht]
        simp [hno]
    · rw [Function.update_of_ne hk]
      by_cases ht : t'=t
      · rw [ht] at hold ⊢
        rw [Function.update_self,hold]
        simp [(h.nodup t).mem_erase_iff,hk]
      · rw [Function.update_of_ne ht]
        exact hold
  · intro t'
    by_cases ht : t'=t
    · rw [ht,Function.update_self]
      exact (h.nodup t).erase l
    · rw [Function.update_of_ne ht]
      exact h.nodup t'

/-- A step of any thread keeps the order in which locks are held. -/
theorem Ordered.step (h : Ordered below s held) (hs : LockOrder.step s t=some s') :
    ∃ held',Ordered below s' held' := by
  rcases step_eq hs with ⟨l,code,hcode,hl,hs'⟩|⟨l,code,hcode,hs'⟩
  · rw [hs']
    exact ⟨_,h.lock hcode hl⟩
  · rw [hs']
    exact ⟨_,h.unlock hcode⟩

/-- Every action of an orderly run keeps the order. -/
theorem Ordered.next {a : Action Thread Lock} (h : Ordered below s held) (hg : Orderly below s a)
    (hn : LockOrder.next s a=some s') : ∃ held',Ordered below s' held' := by
  cases a with
  | call t code =>
    have hs : s.call t code=s' := Option.some.inj hn
    rw [← hs]
    exact ⟨held,h.call hg.1 hg.2⟩
  | step t => exact h.step hn

/-- Every schedule keeps the order in which locks are held. -/
theorem Ordered.schedule {ts : List Thread} (h : Ordered below s held)
    (hs : ts.foldlM LockOrder.step s=some s') : ∃ held',Ordered below s' held' := by
  induction ts generalizing s held with
  | nil =>
    have heq : s=s' := Option.some.inj hs
    rw [← heq]
    exact ⟨held,h⟩
  | cons t ts ih =>
    rw [List.foldlM_cons,Option.bind_eq_bind,Option.bind_eq_some_iff] at hs
    obtain ⟨s₁,h₁,hs⟩ := hs
    obtain ⟨held₁,ho⟩ := h.step h₁
    exact ih ho hs

end Actions

section Progress

variable [DecidableEq Thread] [Fintype Thread] {rank : Lock→ℕ}

/-- The rank of the lock a thread waits for. -/
def waitRank (rank : Lock→ℕ) (s : State Thread Lock) (t : Thread) : ℕ :=
  match s.code t with
  | .lock l::_ => rank l
  | _ => 0

/-- As long as there is something to do, some thread can go on. -/
theorem Ordered.progress (hrank : ∀ k l,below k l → rank k< rank l) (h : Ordered below s held)
    (ht : s.code t≠[]) : ∃ t',LockOrder.step s t'≠none := by
  by_contra hstuck
  have hnone : ∀ t',LockOrder.step s t'=none := fun t' => by_contra fun hs => hstuck ⟨t',hs⟩
  -- the holder of a lock waited for of the highest rank waits for one of a higher rank
  obtain ⟨w,hw,hmax⟩ := Finset.exists_max_image (Finset.univ.filter fun t' => s.code t'≠[])
    (waitRank rank s) ⟨t,by simpa using ht⟩
  have hwc : s.code w≠[] := (Finset.mem_filter.mp hw).2
  obtain ⟨l,code,o,hcode,hl⟩ := step_none (hnone w) hwc
  have hoc : s.code o≠[] := h.code_ne_nil hl
  obtain ⟨k,code',o',hcode',-⟩ := step_none (hnone o) hoc
  have hlt : rank l< rank k := hrank l k (h.waits_above hl hcode')
  have hle : waitRank rank s o≤waitRank rank s w := hmax o (by simpa using hoc)
  have hwr : waitRank rank s w=rank l := by rw [waitRank,hcode]
  have hor : waitRank rank s o=rank k := by rw [waitRank,hcode']
  omega

/-- A step uses up one operation of the code that is left. -/
theorem remaining_step (h : step s t=some s') : remaining s'+1=remaining s := by
  have hcode : ∃ op code,s.code t=op::code ∧ s'.code=Function.update s.code t code := by
    rcases step_eq h with ⟨l,code,hcode,-,rfl⟩|⟨l,code,hcode,rfl⟩
    · exact ⟨_,code,hcode,rfl⟩
    · exact ⟨_,code,hcode,rfl⟩
  obtain ⟨op,code,hcode,hs'⟩ := hcode
  have hold : remaining s=(s.code t).length+∑ u∈Finset.univ.erase t,(s.code u).length :=
    (Finset.add_sum_erase _ _ (Finset.mem_univ t)).symm
  have hnew : remaining s'=(s'.code t).length+∑ u∈Finset.univ.erase t,(s'.code u).length :=
    (Finset.add_sum_erase _ _ (Finset.mem_univ t)).symm
  have hrest : ∑ u∈Finset.univ.erase t,(s'.code u).length=
      ∑ u∈Finset.univ.erase t,(s.code u).length := by
    refine Finset.sum_congr rfl fun u hu => ?_
    rw [hs',Function.update_of_ne (Finset.ne_of_mem_erase hu)]
  have hself : (s'.code t).length+1=(s.code t).length := by
    rw [hs',Function.update_self,hcode,List.length_cons]
  omega

/-- A schedule does as many things as it is long. -/
theorem remaining_schedule {ts : List Thread} (h : ts.foldlM step s=some s') :
    remaining s'+ts.length=remaining s := by
  induction ts generalizing s with
  | nil =>
    have heq : s=s' := Option.some.inj h
    rw [heq,List.length_nil,Nat.add_zero]
  | cons t ts ih =>
    rw [List.foldlM_cons,Option.bind_eq_bind,Option.bind_eq_some_iff] at h
    obtain ⟨s₁,h₁,h⟩ := h
    have hone := remaining_step h₁
    have hrest := ih h
    rw [List.length_cons]
    omega

/-- No schedule deadlocks: it can be continued, or everything has been run and no lock is held. -/
theorem Ordered.no_deadlock (hrank : ∀ k l,below k l → rank k< rank l) (h : Ordered below s held)
    {ts : List Thread} (hs : ts.foldlM LockOrder.step s=some s') :
    (ts.length< remaining s ∧ ∃ t,LockOrder.step s' t≠none) ∨
      (ts.length=remaining s ∧ (∀ t,s'.code t=[]) ∧ ∀ l,s'.holder l=none) := by
  obtain ⟨held',ho⟩ := h.schedule hs
  have hlength := remaining_schedule hs
  by_cases hz : remaining s'=0
  · have hdone := remaining_eq_zero.mp hz
    exact .inr ⟨by omega,hdone,ho.free hdone⟩
  · have hsome : ∃ t,s'.code t≠[] := by
      by_contra hno
      exact hz (remaining_eq_zero.mpr fun t => by_contra fun ht => hno ⟨t,ht⟩)
    obtain ⟨t,ht⟩ := hsome
    exact .inl ⟨by omega,ho.progress hrank ht⟩

end Progress

section Stuck

variable [DecidableEq Thread]

/-- A thread that holds a lock and comes to take it again. -/
structure Stuck (s : State Thread Lock) (t : Thread) (l : Lock) : Prop where
  /-- The thread holds the lock. -/
  holds : s.holder l=some t
  /-- The thread takes the lock before it releases it. -/
  retakes : Retakes l (s.code t)

/-- A thread that comes to take a lock it holds does not release it in any step. -/
theorem Stuck.step {u : Thread} (h : Stuck s t l) (ho : Ordered below s held)
    (hs : LockOrder.step s u=some s') : Stuck s' t l := by
  rcases step_eq hs with ⟨k,code,hcode,hk,rfl⟩|⟨k,code,hcode,rfl⟩
  · have hkl : l≠k := by
      intro heq
      rw [← heq,h.holds] at hk
      cases hk
    refine ⟨(Function.update_of_ne hkl _ _).trans h.holds,?_⟩
    show Retakes l (Function.update s.code u code t)
    by_cases hu : t=u
    · have hr := h.retakes
      rw [hu,hcode] at hr
      rw [hu,Function.update_self]
      exact hr.resolve_left fun heq => hkl heq.symm
    · rw [Function.update_of_ne hu]
      exact h.retakes
  · have hmem : k∈held u := by
      have hc := ho.code u
      rw [hcode] at hc
      exact hc.1
    have hheld : s.holder k=some u := (ho.holds u k).mpr hmem
    by_cases hu : t=u
    · have hr := h.retakes
      rw [hu,hcode] at hr
      refine ⟨(Function.update_of_ne (Ne.symm hr.1) _ _).trans h.holds,?_⟩
      show Retakes l (Function.update s.code u code t)
      rw [hu,Function.update_self]
      exact hr.2
    · have hkl : l≠k := by
        intro heq
        rw [← heq,h.holds] at hheld
        exact hu (Option.some.inj hheld)
      refine ⟨(Function.update_of_ne hkl _ _).trans h.holds,?_⟩
      show Retakes l (Function.update s.code u code t)
      rw [Function.update_of_ne hu]
      exact h.retakes

/-- A call of code that releases only what it has taken does not help. -/
theorem Stuck.call {u : Thread} {code : List (Op Lock)} (h : Stuck s t l)
    (hc : Disciplined below [] code) : Stuck (s.call u code) t l := by
  refine ⟨h.holds,?_⟩
  show Retakes l (Function.update s.code u (code++s.code u) t)
  by_cases hu : t=u
  · rw [hu,Function.update_self]
    exact hc.retakes List.not_mem_nil (hu ▸ h.retakes)
  · rw [Function.update_of_ne hu]
    exact h.retakes

/-- A thread that waits for a lock it holds keeps waiting, whatever action comes. -/
theorem Stuck.next {a : Action Thread Lock} (h : Stuck s t l) (ho : Ordered below s held)
    (hg : Orderly below s a) (hn : LockOrder.next s a=some s') : Stuck s' t l := by
  cases a with
  | call u code =>
    have heq : s.call u code=s' := Option.some.inj hn
    rw [← heq]
    exact h.call hg.1
  | step u => exact h.step ho hn

/-- A thread that comes to take a lock it holds never releases it. -/
theorem Stuck.run {s₀ : State Thread Lock} (h₀ : Stuck s₀ t l) (ho : Ordered below s₀ held)
    (h : Run LockOrder.next (Orderly below) s₀ s) : Stuck s t l := by
  have hstep : ∀ (s : State Thread Lock) a s',(Stuck s t l ∧ ∃ held,Ordered below s held) →
      Orderly below s a → LockOrder.next s a=some s' →
      Stuck s' t l ∧ ∃ held,Ordered below s' held := by
    intro s₁ a s₂ hs hg hn
    obtain ⟨hstuck,held₁,ho₁⟩ := hs
    exact ⟨hstuck.next ho₁ hg hn,ho₁.next hg hn⟩
  exact (h.invariant ⟨h₀,held,ho⟩ hstep).1

end Stuck

end IftopColor.LockOrder
