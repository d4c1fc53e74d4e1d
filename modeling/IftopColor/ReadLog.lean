import Mathlib.Order.MinMax
import Mathlib.Algebra.NeZero
import Mathlib.Order.Basic
import Mathlib.Tactic.Linarith

/-!
# Memory reads with a log

A computation looks at cells of a memory and notes the offsets of all cells it
has looked at. Its extent is the length of the shortest prefix of the memory
that holds them all: the computation stays inside a buffer exactly if its extent
is at most the length of the buffer.
-/

namespace IftopColor.ReadLog

variable {α β γ : Type}

/-- A computation on a memory with cells in `β`, with the offsets it has read. -/
def Reads (β α : Type) : Type := (ℕ→β)→α×List ℕ

namespace Reads

instance : Monad (Reads β) where
  pure a := fun _ => (a,[])
  bind m f := fun mem => ((f (m mem).1 mem).1,(m mem).2++(f (m mem).1 mem).2)

/-- What a computation returns. -/
def value (m : Reads β α) (mem : ℕ→β) : α := (m mem).1

/-- Offsets that a computation has read. -/
def offsets (m : Reads β α) (mem : ℕ→β) : List ℕ := (m mem).2

/-- Length of the shortest prefix that holds all offsets. -/
def extent (m : Reads β α) (mem : ℕ→β) : ℕ := (offsets m mem).foldr (fun i n => max (i+1) n) 0

/-- Read one cell. -/
def cell (i : ℕ) : Reads β β := fun mem => (mem i,[i])

/-- Read a block of cells. -/
def block (i n : ℕ) : Reads β (Fin n→β) := fun mem => (fun j => mem (i+j),List.range' i n)

/-- Run a computation on the memory from an offset on. -/
def shift (i : ℕ) (m : Reads β α) : Reads β α := fun mem =>
  let (a,read) := m fun j => mem (i+j)
  (a,read.map (i+·))

variable {mem : ℕ→β}

/-- The extent bounds all offsets and is the least such bound. -/
theorem extent_le_iff {m : Reads β α} {n : ℕ} : extent m mem≤n ↔ ∀ i∈offsets m mem,i<n := by
  unfold extent
  induction offsets m mem with
  | nil => simp
  | cons i is ih =>
    rw [List.foldr_cons,max_le_iff,ih,List.forall_mem_cons,Nat.add_one_le_iff]

/-- Returning a value reads nothing. -/
@[simp]
theorem value_pure (a : α) : value (pure a : Reads β α) mem=a := by
  simp only [value,pure]

/-- The second computation gets what the first returned. -/
@[simp]
theorem value_bind (m : Reads β α) (f : α→Reads β γ) :
    value (m>>=f) mem=value (f (value m mem)) mem := by
  simp only [value,bind]

/-- The value of reading a cell is the content of the cell. -/
@[simp]
theorem value_cell (i : ℕ) : value (cell i) mem=mem i := by
  simp only [value,cell]

/-- The value of reading a block is the contents of its cells. -/
@[simp]
theorem value_block (i n : ℕ) : value (block i n) mem=fun j : Fin n => mem (i+j) := by
  simp only [value,block]

/-- The value of a shifted computation is that of the computation on shifted memory. -/
@[simp]
theorem value_shift (i : ℕ) (m : Reads β α) :
    value (shift i m) mem=value m fun j => mem (i+j) := by
  simp only [value,shift]

/-- A choice between computations. -/
@[simp]
theorem value_ite (c : Prop) [Decidable c] (m m' : Reads β α) :
    value (if c then m else m') mem=if c then value m mem else value m' mem := by
  split <;> rfl

/-- Returning a value reads nothing. -/
@[simp]
theorem extent_pure (a : α) : extent (pure a : Reads β α) mem=0 := rfl

/-- Two computations read as far as the one that reads farther. -/
@[simp]
theorem extent_bind (m : Reads β α) (f : α→Reads β γ) :
    extent (m>>=f) mem=max (extent m mem) (extent (f (value m mem)) mem) := by
  apply eq_of_forall_ge_iff
  intro n
  have hoff : offsets (m>>=f) mem=offsets m mem++offsets (f (value m mem)) mem := rfl
  rw [max_le_iff,extent_le_iff,extent_le_iff,extent_le_iff,hoff,List.forall_mem_append]

/-- Reading a cell needs the memory up to it. -/
@[simp]
theorem extent_cell (i : ℕ) : extent (cell i) mem=i+1 := by
  simp [extent,offsets,cell]

/-- Reading a block with at least one cell needs the memory up to its end. -/
@[simp]
theorem extent_block (i n : ℕ) [NeZero n] : extent (block i n) mem=i+n := by
  apply eq_of_forall_ge_iff
  intro k
  have hn := Nat.pos_of_neZero n
  have hoff : offsets (block i n) mem=List.range' i n := rfl
  rw [extent_le_iff,hoff]
  simp only [List.mem_range'_1]
  constructor
  · intro h
    have hlast := h (i+n-1) (by omega)
    omega
  · intro h j hj
    omega

/-- A shifted computation that reads anything at all. -/
theorem extent_shift {i : ℕ} {m : Reads β α} (h : 0<extent m fun j => mem (i+j)) :
    extent (shift i m) mem=i+extent m fun j => mem (i+j) := by
  apply eq_of_forall_ge_iff
  intro k
  have hoff : offsets (shift i m) mem=(offsets m fun j => mem (i+j)).map (i+·) := rfl
  rw [extent_le_iff,hoff,List.forall_mem_map]
  constructor
  · intro hk
    have hle : (extent m fun j => mem (i+j))≤k-i := by
      rw [extent_le_iff]
      intro j hj
      have := hk j hj
      omega
    omega
  · intro hk j hj
    have hlt := extent_le_iff.mp (le_refl (extent m fun j => mem (i+j))) j hj
    omega

/-- A choice between computations. -/
@[simp]
theorem extent_ite (c : Prop) [Decidable c] (m m' : Reads β α) :
    extent (if c then m else m') mem=if c then extent m mem else extent m' mem := by
  split <;> rfl

end Reads

end IftopColor.ReadLog
