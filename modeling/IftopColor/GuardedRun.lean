import Mathlib.Logic.Relation

/-!
# Runs of a partial transition function

A transition function says which state an action leads to, or that the action
is not enabled. A guard restricts which of the enabled actions a run may take.
An invariant that holds initially and is kept by every guarded transition holds
in every state of every guarded run.
-/

namespace IftopColor.GuardedRun

variable {σ α : Type}

/-- States that guarded actions lead to from an initial state. -/
inductive Run (next : σ→α→Option σ) (guard : σ→α→Prop) (init : σ) : σ→Prop where
  | init : Run next guard init init
  | step {s s' : σ} {a : α} : Run next guard init s → guard s a→next s a=some s'→
      Run next guard init s'

/-- Runs without a guard. -/
abbrev Reaches (next : σ→α→Option σ) : σ→σ→Prop := Run next fun _ _ => True

variable {next : σ→α→Option σ} {guard : σ→α→Prop} {init s s' s'' : σ} {a : α}

/-- A property that holds at the start and that every guarded step keeps holds in every state
reached. -/
theorem Run.invariant {Inv : σ→Prop} (h : Run next guard init s) (hinit : Inv init)
    (hstep : ∀ s a s',Inv s → guard s a→next s a=some s'→Inv s') : Inv s := by
  induction h with
  | init => exact hinit
  | step _ hg hn ih => exact hstep _ _ _ ih hg hn

/-- A weaker guard allows the same runs. -/
theorem Run.mono {guard' : σ→α→Prop} (h : Run next guard init s)
    (hg : ∀ s a,guard s a→ guard' s a) : Run next guard' init s := by
  induction h with
  | init => exact .init
  | step _ ha hn ih => exact .step ih (hg _ _ ha) hn

/-- A list of actions, each enabled and allowed where it is taken. -/
theorem Run.foldlM [∀ s a,Decidable (guard s a)] {as : List α} (hs : Run next guard init s)
    (h : as.foldlM (fun s a => if guard s a then next s a else none) s=some s') :
    Run next guard init s' := by
  induction as generalizing s with
  | nil =>
    rw [List.foldlM_nil] at h
    obtain rfl : s=s' := by simpa using h
    exact hs
  | cons a as ih =>
    rw [List.foldlM_cons,Option.bind_eq_bind,Option.bind_eq_some_iff] at h
    obtain ⟨s₁,hstep,hrest⟩ := h
    by_cases hg : guard s a
    · rw [if_pos hg] at hstep
      exact ih (.step hs hg hstep) hrest
    · rw [if_neg hg] at hstep
      cases hstep

/-- An enabled action leads to a reachable state. -/
theorem Reaches.single (h : next s a=some s') : Reaches next s s' := .step .init trivial h

/-- A state reached from a reachable state is reachable. -/
theorem Reaches.trans (h : Reaches next s s') (h' : Reaches next s' s'') : Reaches next s s'' := by
  induction h' with
  | init => exact h
  | step _ _ hn ih => exact .step ih trivial hn

/-- A run is empty or begins with an action. -/
theorem Reaches.head (h : Reaches next s s'') :
    s''=s ∨ ∃ a s',next s a=some s' ∧ Reaches next s' s'' := by
  induction h with
  | init => exact .inl rfl
  | step _ _ hn ih =>
    rcases ih with rfl|⟨a,s',ha,hr⟩
    · exact .inr ⟨_,_,hn,.init⟩
    · exact .inr ⟨a,s',ha,.step hr trivial hn⟩

/-- A list of actions, each enabled where it is taken. -/
theorem Reaches.of_foldlM {as : List α} (h : as.foldlM next s=some s') : Reaches next s s' := by
  induction as generalizing s with
  | nil =>
    rw [List.foldlM_nil] at h
    obtain rfl : s=s' := by simpa using h
    exact .init
  | cons a as ih =>
    rw [List.foldlM_cons,Option.bind_eq_bind,Option.bind_eq_some_iff] at h
    obtain ⟨s₁,h₁,h⟩ := h
    exact (Reaches.single h₁).trans (ih h)

end IftopColor.GuardedRun
