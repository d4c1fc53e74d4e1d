import Mathlib.Algebra.BigOperators.Group.List.Basic
import Mathlib.Data.List.Induction
import Mathlib.Order.Bounds.Basic
import Mathlib.Tactic.Linarith

/-!
# Counters of a run

A variable that every event of a run updates by itself has, at the end of the run, a value that
can be read off the events: a switch the parity of the events that turn it, a variable that goes
round in a circle their number, one that is assigned its last assignment. A counter that goes up
and down but not below zero has climbed, since some event of the run, as far as it could.
-/

namespace IftopColor.RunCounters

variable {α β : Type}

/-- An odd number. -/
abbrev isOdd (n : ℕ) : Bool := decide (n%2=1)

/-- How far some events go up. -/
def climb (w : α→ℤ) (as : List α) : ℤ := (as.map w).sum

end IftopColor.RunCounters
