import Mathlib.Data.List.Basic

/-!
# Blocks of cells

A block is a list of cells; a cell that was never written holds nothing that can be
relied on. Storing, moving and filling are checked against the end of the block.
Each operation is described by the first cells of the block it leaves, since that is
the part a container keeps its elements in.
-/

namespace IftopColor.CellBlock

variable {α : Type}

/-- Cells of a block, `none` where nothing was written yet. -/
abbrev Cells (α : Type) := List (Option α)

/-- Store one cell. -/
def put (cells : Cells α) (i : ℕ) (x : α) : Option (Cells α) :=
  if i< cells.length then some (cells.set i (some x)) else none

/-- `memmove` of `count` cells; the two ranges may overlap. -/
def move (cells : Cells α) (dst src count : ℕ) : Option (Cells α) :=
  if dst+count≤ cells.length ∧ src+count≤ cells.length then
    some (cells.take dst++(cells.drop src).take count++cells.drop (dst+count))
  else none

/-- `memset` of `count` cells to one value. -/
def fill (cells : Cells α) (i count : ℕ) (x : α) : Option (Cells α) :=
  if i+count≤ cells.length then
    some (cells.take i++List.replicate count (some x)++cells.drop (i+count))
  else none

/-- `realloc`: cells up to the smaller size are kept, new ones are unwritten. -/
def resize (cells : Cells α) (count : ℕ) : Cells α :=
  cells.take count++List.replicate (count-cells.length) none

variable {cells cells' : Cells α} {i k dst src count : ℕ} {x : α}

/-- A fill succeeds inside the block only. -/
theorem fill_eq_none_iff : fill cells i count x=none ↔ cells.length< i+count := by
  unfold fill
  split <;> simp <;> omega

/-- A move succeeds if both ranges are inside the block. -/
theorem move_eq_none_iff :
    move cells dst src count=none ↔ cells.length<dst+count ∨ cells.length<src+count := by
  unfold move
  split <;> simp <;> omega

/-- A store right behind the first cells adds one to them. -/
theorem put_spec (h : i< cells.length) : ∃ cells',put cells i x=some cells' ∧
    cells'.length=cells.length ∧ cells'.take (i+1)=cells.take i++[some x] := by
  refine ⟨_,if_pos h,List.length_set,?_⟩
  rw [List.take_add_one,List.take_set_of_le (Nat.le_refl i),List.getElem?_set_self h,
    Option.toList_some]

/-- A fill keeps the cells in front of it. -/
theorem fill_spec (h : i+count≤ cells.length) (x : α) : ∃ cells',fill cells i count x=some cells' ∧
    cells'.length=cells.length ∧ ∀ k≤ i,cells'.take k=cells.take k := by
  refine ⟨_,if_pos h,?_,fun k hk => ?_⟩
  · simp only [List.length_append,List.length_take,List.length_replicate,List.length_drop]
    omega
  · have hl : k≤ (cells.take i).length := by
      rw [List.length_take]
      omega
    rw [List.append_assoc,List.take_append_of_le_length hl,List.take_take,Nat.min_eq_left hk]

/-- A fill keeps the size of the block. -/
theorem fill_length (h : fill cells i count x=some cells') : cells'.length=cells.length := by
  have hroom : i+count≤ cells.length := by
    by_contra hno
    rw [fill_eq_none_iff.mpr (by omega)] at h
    cases h
  obtain ⟨filled,hok,hlength,-⟩ := fill_spec hroom x
  rw [hok] at h
  cases h
  exact hlength

/-- A move down the block keeps the cells below its target and puts the cells of the
source behind them. -/
theorem move_spec (hd : dst+count≤ cells.length) (hs : src+count≤ cells.length) :
    ∃ cells',move cells dst src count=some cells' ∧ cells'.length=cells.length ∧
      ∀ n≤ count,cells'.take (dst+n)=cells.take dst++(cells.drop src).take n := by
  have hdst : (cells.take dst).length=dst := List.length_take_of_le (by omega)
  refine ⟨_,if_pos ⟨hd,hs⟩,?_,fun n hn => ?_⟩
  · simp only [List.length_append,List.length_take,List.length_drop]
    omega
  · have hl : n≤ ((cells.drop src).take count).length := by
      rw [List.length_take,List.length_drop]
      omega
    rw [List.append_assoc,List.take_append,hdst,List.take_of_length_le (by omega),
      Nat.add_sub_cancel_left,List.take_append_of_le_length hl,List.take_take,Nat.min_eq_left hn]

/-- A block that is resized has the cells that were asked for. -/
theorem resize_length (cells : Cells α) (count : ℕ) : (resize cells count).length=count := by
  simp only [resize,List.length_append,List.length_take,List.length_replicate]
  omega

/-- Resizing keeps the first cells, as many as the old and the new block have. -/
theorem resize_take (hc : k≤ count) (hl : k≤ cells.length) :
    (resize cells count).take k=cells.take k := by
  have hk : k≤ (cells.take count).length := by
    rw [List.length_take]
    omega
  rw [resize,List.take_append_of_le_length hk,List.take_take,Nat.min_eq_left hc]

end IftopColor.CellBlock
