import Mathlib.Data.List.Nodup
import Mathlib.Data.List.Perm.Basic

/-!
# Block pool allocation with a free list

Items are numbered consecutively, block after block. An allocation takes the
head of the free list, or opens a new block, hands out its first item and
chains the others. Ownership is stated as a partition: the items in use and
the free items together are exactly the items of the allocated blocks, each
once. Aliasing and reuse of a live item are excluded by that partition.
-/

namespace IftopColor.BlockPool

/-- Free items and the number of blocks obtained so far. -/
structure Pool where
  /-- Free list, most recently released item first. -/
  free : List ℕ
  /-- Number of blocks allocated since the start. -/
  blocks : ℕ

/-- No block has been allocated and nothing is free. -/
def Pool.empty : Pool := ⟨[],0⟩

/-- Take one item. A new block keeps all items but its first one free. -/
def Pool.alloc (blockSize : ℕ) (pool : Pool) : ℕ×Pool :=
  match pool.free with
  | item::rest => (item,{pool with free := rest})
  | [] => (blockSize*pool.blocks,
      ⟨List.range' (blockSize*pool.blocks+1) (blockSize-1),pool.blocks+1⟩)

/-- Put one item back at the head of the free list. -/
def Pool.release (item : ℕ) (pool : Pool) : Pool := {pool with free := item::pool.free}

/-- The items in use and the free items are the items of the allocated
blocks, each exactly once. -/
def Owns (blockSize : ℕ) (pool : Pool) (used : List ℕ) : Prop :=
  (used++pool.free).Perm (List.range (blockSize*pool.blocks))

variable {blockSize : ℕ} {pool : Pool} {used other : List ℕ} {item : ℕ}

/-- The empty pool has nothing in use. -/
theorem owns_empty : Owns blockSize Pool.empty [] := by
  simp [Owns,Pool.empty]

/-- Ownership does not depend on the order in which used items are listed. -/
theorem Owns.perm (h : Owns blockSize pool used) (hp : used.Perm other) :
    Owns blockSize pool other :=
  (hp.symm.append_right pool.free).trans h

/-- No item is in use twice, since the items in use are part of a partition. -/
theorem Owns.nodup (h : Owns blockSize pool used) : used.Nodup :=
  (h.nodup_iff.mpr List.nodup_range).of_append_left

/-- The range of one more block is the old range, its first item and the rest. -/
theorem range_block (hb : 0<blockSize) (n : ℕ) :
    List.range (blockSize*(n+1))=
      List.range (blockSize*n)++blockSize*n::List.range' (blockSize*n+1) (blockSize-1) := by
  obtain ⟨m,rfl⟩ : ∃ m,blockSize=m+1 := ⟨blockSize-1,by omega⟩
  rw [Nat.mul_succ,List.range_add]
  congr 1
  rw [List.range_eq_range',List.map_add_range',Nat.add_zero,List.range'_succ,Nat.add_sub_cancel]

/-- An allocation moves one item into use and nothing else. -/
theorem alloc_owns (hb : 0<blockSize) (h : Owns blockSize pool used) :
    Owns blockSize (pool.alloc blockSize).2 ((pool.alloc blockSize).1::used) := by
  unfold Pool.alloc
  cases hf : pool.free with
  | cons item rest =>
    rw [Owns,hf] at h
    exact List.perm_middle.symm.trans h
  | nil =>
    rw [Owns,hf,List.append_nil] at h
    dsimp only [Owns]
    rw [range_block hb,List.cons_append]
    exact (List.perm_middle.symm).trans (h.append_right _)

/-- A release moves exactly the released item to the free list. -/
theorem release_owns (h : Owns blockSize pool (item::used)) :
    Owns blockSize (pool.release item) used :=
  List.perm_middle.trans h

/-- An allocated item was not in use before. -/
theorem alloc_fresh (hb : 0<blockSize) (h : Owns blockSize pool used) :
    (pool.alloc blockSize).1∉used :=
  (List.nodup_cons.mp (alloc_owns hb h).nodup).1

end IftopColor.BlockPool
