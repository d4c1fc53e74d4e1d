import Mathlib.Data.Set.Card

/-!
# Histories of a map

A history lists what was put into a map and dropped from it, newest entry first. The
value of a key is that of its newest entry. A counter that is raised by every put and
lowered by every drop of a key that is present counts the keys that are present and, in
addition, every put of a key that was present already.
-/

namespace IftopColor.MapHistory

variable {κ ν : Type}

/-- An entry of a history. -/
inductive Entry (κ ν : Type) where
  /-- A value is put under a key. -/
  | put (key : κ) (value : ν)
  /-- A key is dropped. -/
  | drop (key : κ)
  deriving DecidableEq

variable [DecidableEq κ]

/-- The value of the newest entry of a key. -/
def latest : List (Entry κ ν)→κ→Option ν
  | [],_ => none
  | .put k v::history,key => if k=key then some v else latest history key
  | .drop k::history,key => if k=key then none else latest history key

/-- Keys with a value. -/
def keys (history : List (Entry κ ν)) : Set κ := {key | latest history key≠none}

/-- Number of puts of a key that had a value. -/
def overwrites : List (Entry κ ν)→ℕ
  | [] => 0
  | .put k _::history => overwrites history+if (latest history k).isSome then 1 else 0
  | .drop _::history => overwrites history

/-- No put finds a value under its key. -/
def Fresh : List (Entry κ ν)→Prop
  | [] => True
  | .put k _::history => latest history k=none ∧ Fresh history
  | .drop _::history => Fresh history

/-- A counter that every put raises and every drop of a key with a value lowers. -/
def tally : List (Entry κ ν)→ℤ
  | [] => 0
  | .put _ _::history => tally history+1
  | .drop k::history => tally history-if (latest history k).isSome then 1 else 0

variable {history : List (Entry κ ν)} {key : κ} {value : ν}

/-- Before the first operation no key has a value. -/
@[simp] theorem keys_nil : keys ([] : List (Entry κ ν))=∅ := by
  ext k
  simp [keys,latest]

/-- After a put its key has a value, like those that had one before. -/
@[simp] theorem keys_put : keys (.put key value::history)=insert key (keys history) := by
  ext k
  by_cases hk : key=k <;> simp [keys,latest,hk,Ne.symm,eq_comm (a:=k)]

/-- After a drop its key has no value, and the others are as before. -/
@[simp] theorem keys_drop : keys (.drop key::history : List (Entry κ ν))=keys history\{key} := by
  ext k
  by_cases hk : key=k <;> simp [keys,latest,hk,eq_comm (a:=k)]

/-- Finitely many keys have a value, since a history is a list. -/
theorem keys_finite (history : List (Entry κ ν)) : (keys history).Finite := by
  induction history with
  | nil => simp
  | cons e history ih =>
    cases e with
    | put k v => simpa using ih.insert k
    | drop k => simpa using ih.sdiff

/-- A key is found exactly if it has a value. -/
theorem isSome_iff : (latest history key).isSome ↔ key∈keys history := Option.isSome_iff_ne_none

/-- The counter is the number of keys with a value and of the puts that found one. -/
theorem tally_eq (history : List (Entry κ ν)) :
    tally history=(keys history).ncard+overwrites history := by
  induction history with
  | nil => simp [tally,overwrites]
  | cons e history ih =>
    have hfin := keys_finite history
    cases e with
    | put k v =>
      rw [tally,overwrites,keys_put,ih]
      by_cases hk : k∈keys history
      · rw [Set.insert_eq_of_mem hk,if_pos (isSome_iff.mpr hk)]
        push_cast
        omega
      · rw [Set.ncard_insert_of_notMem hk hfin,if_neg (mt isSome_iff.mp hk)]
        push_cast
        omega
    | drop k =>
      rw [tally,overwrites,keys_drop,ih]
      by_cases hk : k∈keys history
      · have hcard := Set.ncard_sdiff_singleton_add_one hk hfin
        rw [if_pos (isSome_iff.mpr hk),← hcard]
        push_cast
        omega
      · rw [Set.sdiff_singleton_eq_self hk,if_neg (mt isSome_iff.mp hk)]
        omega

/-- No put is counted exactly if none finds a value. -/
theorem overwrites_eq_zero_iff : overwrites history=0 ↔ Fresh history := by
  induction history with
  | nil => simp [overwrites,Fresh]
  | cons e history ih =>
    cases e with
    | put k v =>
      rw [overwrites,Fresh,← ih]
      cases latest history k <;> simp
    | drop k => exact ih

/-- The counter is the number of keys with a value exactly if no put found one. -/
theorem tally_eq_ncard_iff : tally history=(keys history).ncard ↔ Fresh history := by
  rw [tally_eq,← overwrites_eq_zero_iff]
  omega

end IftopColor.MapHistory
