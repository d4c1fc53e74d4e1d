import IftopColor.BlockPool
import IftopColor.LinkedCells

/-!
# A block pool in memory

Free items are linked through a field of the items themselves, whose bytes belong
to the user while an item is in use. An allocation takes the first free item, or
obtains a block, hands out its first item and links the others by a loop with its
ends set by hand; a release writes the link of the item. The pointers refine a pool
of lists as long as items in use are not on the free list, and an allocation leaves
the items of the old blocks alone.
-/

namespace IftopColor.PoolHeap

open BlockPool LinkedCells

/-- A field of an item that can hold a link. -/
structure LinkField (ι : Type) where
  /-- Read the link. -/
  get : ι→Option ℕ
  /-- Write the link. -/
  set : Option ℕ→ι→ι
  /-- A link that was written is read back. -/
  get_set : ∀ v item,get (set v item)=v

/-- Items in memory, and the pool of those that are free. -/
structure PoolMem (ι : Type) where
  /-- Items by address; block after block. -/
  mem : ℕ→ι
  /-- First free item. -/
  freeList : Option ℕ
  /-- Number of blocks obtained so far. -/
  blocks : ℕ

variable {ι : Type} (field : LinkField ι)

/-- Write the link of one item. -/
def writeLink (item : ℕ) (v : Option ℕ) (mem : ℕ→ι) : ℕ→ι :=
  Function.update mem item (field.set v (mem item))

/-- The loop that links `count` items from `item` on, each to the next. -/
def threadItems : ℕ→ℕ→(ℕ→ι)→ℕ→ι
  | 0,_,mem => mem
  | count+1,item,mem => threadItems count (item+1) (writeLink field item (some (item+1)) mem)

/-- Take an item. A new block keeps all items but its first one on the free list. -/
def poolAlloc (blockSize : ℕ) (s : PoolMem ι) : ℕ×PoolMem ι :=
  match s.freeList with
  | some item => (item,{s with freeList := field.get (s.mem item)})
  | none =>
    let block := blockSize*s.blocks
    let mem := threadItems field (blockSize-2) (block+1) s.mem
    let mem := writeLink field (block+(blockSize-1)) none mem
    (block,⟨mem,some (block+1),s.blocks+1⟩)

/-- Put an item in front of the free list. -/
def poolFree (item : ℕ) (s : PoolMem ι) : PoolMem ι :=
  {s with mem := writeLink field item s.freeList s.mem,freeList := some item}

/-- The links of a memory. -/
def linkOf (mem : ℕ→ι) (item : ℕ) : Option ℕ := field.get (mem item)

/-- The pointers are those of a pool of lists. -/
structure Pooled (s : PoolMem ι) (pool : Pool) : Prop where
  /-- The free list. -/
  chain : Chain (linkOf field s.mem) s.freeList pool.free
  /-- The blocks. -/
  blocks : s.blocks=pool.blocks

variable {field} {s : PoolMem ι} {pool : Pool} {used : List ℕ} {blockSize item : ℕ} {mem : ℕ→ι}

/-- A pool without blocks has no items. -/
theorem pooled_empty (mem : ℕ→ι) : Pooled field ⟨mem,none,0⟩ Pool.empty := ⟨rfl,rfl⟩

/-- The link of an item is the one that was written to it last. -/
theorem linkOf_writeLink_self (v : Option ℕ) :
    linkOf field (writeLink field item v mem) item=v := by
  rw [linkOf,writeLink,Function.update_self,field.get_set]

/-- Writing a link leaves all other items as they are. -/
theorem writeLink_of_ne {a : ℕ} (h : a≠item) (v : Option ℕ) : writeLink field item v mem a=mem a :=
  Function.update_of_ne h _ _

/-- Items outside the loop stay as they are. -/
theorem threadItems_of_notMem {a : ℕ} (count : ℕ) :
    ∀ (item : ℕ) (mem : ℕ→ι),¬(item≤a ∧ a< item+count)→threadItems field count item mem a=mem a := by
  induction count with
  | zero => exact fun _ _ _ => rfl
  | succ count ih =>
    intro item mem h
    rw [threadItems,ih _ _ (by omega),writeLink_of_ne (by omega)]

/-- Items inside the loop are linked to their successor. -/
theorem linkOf_threadItems {a : ℕ} (count : ℕ) :
    ∀ (item : ℕ) (mem : ℕ→ι),item≤a→a< item+count→
      linkOf field (threadItems field count item mem) a=some (a+1) := by
  induction count with
  | zero => omega
  | succ count ih =>
    intro item mem h1 h2
    rw [threadItems]
    by_cases ha : a=item
    · subst ha
      rw [linkOf,threadItems_of_notMem count _ _ (by omega)]
      exact linkOf_writeLink_self _
    · exact ih _ _ (by omega) (by omega)

/-- Consecutive items that are linked to each other, the last one to nothing. -/
theorem chain_range' {next : ℕ→Option ℕ} (count : ℕ) :
    ∀ item,(∀ a,item≤a→a< item+count→next a=some (a+1))→next (item+count)=none→
      Chain next (some item) (List.range' item (count+1)) := by
  induction count with
  | zero =>
    intro item _ hlast
    exact ⟨rfl,hlast⟩
  | succ count ih =>
    intro item hlinks hlast
    have hrest : Chain next (some (item+1)) (List.range' (item+1) (count+1)) := by
      refine ih (item+1) (fun a h1 h2 => hlinks a (by omega) (by omega)) ?_
      rwa [show item+1+count=item+(count+1) by omega]
    rw [List.range'_succ]
    refine ⟨rfl,?_⟩
    rwa [hlinks item (Nat.le_refl _) (by omega)]

/-- Items of an owned pool lie in its blocks. -/
theorem Owns.lt (h : Owns blockSize pool used) (hi : item∈used++pool.free) :
    item<blockSize*pool.blocks :=
  List.mem_range.mp (h.subset hi)

/-- An allocation takes the item that the pool of lists takes, and leaves the items of
the old blocks alone. -/
theorem poolAlloc_pooled (hb : 2≤blockSize) (h : Pooled field s pool) :
    (poolAlloc field blockSize s).1=(pool.alloc blockSize).1 ∧
      Pooled field (poolAlloc field blockSize s).2 (pool.alloc blockSize).2 ∧
      ∀ a<blockSize*pool.blocks,(poolAlloc field blockSize s).2.mem a=s.mem a := by
  have hc := h.chain
  unfold poolAlloc Pool.alloc
  cases hf : pool.free with
  | cons item rest =>
    rw [hf] at hc
    obtain ⟨he,hc⟩ := hc
    rw [he]
    exact ⟨rfl,⟨hc,h.blocks⟩,fun a _ => rfl⟩
  | nil =>
    rw [hf] at hc
    have he : s.freeList=none := hc
    rw [he,h.blocks]
    dsimp only
    generalize blockSize*pool.blocks=block
    obtain ⟨count,rfl⟩ : ∃ count,blockSize=count+2 := ⟨blockSize-2,by omega⟩
    have hcount : count+2-2=count ∧ count+2-1=count+1 := by omega
    rw [hcount.1,hcount.2]
    refine ⟨rfl,⟨?_,rfl⟩,fun a ha => ?_⟩
    · apply chain_range'
      · intro a h1 h2
        have hout : writeLink field (block+(count+1)) none
            (threadItems field count (block+1) s.mem) a=
              threadItems field count (block+1) s.mem a := writeLink_of_ne (by omega) _
        exact (congrArg field.get hout).trans (linkOf_threadItems count _ _ h1 h2)
      · rw [show block+1+count=block+(count+1) by omega]
        exact linkOf_writeLink_self _
    · rw [writeLink_of_ne (by omega),threadItems_of_notMem _ _ _ (by omega)]

/-- A release puts the item on the free list and leaves all other items alone. -/
theorem poolFree_pooled (h : Pooled field s pool) (hi : item∉pool.free) :
    Pooled field (poolFree field item s) (pool.release item) ∧
      ∀ a≠item,(poolFree field item s).mem a=s.mem a := by
  have hout : ∀ a≠item,(poolFree field item s).mem a=s.mem a := fun a ha => writeLink_of_ne ha _
  refine ⟨⟨⟨rfl,?_⟩,h.blocks⟩,hout⟩
  have hlink : linkOf field (poolFree field item s).mem item=s.freeList := linkOf_writeLink_self _
  rw [hlink]
  refine Seg.congr h.chain fun a ha => ?_
  rw [linkOf,linkOf,hout a]
  rintro rfl
  exact hi ha

/-- Items in use may change as long as the free ones do not. -/
theorem Pooled.congr (h : Pooled field s pool) {mem : ℕ→ι} (he : ∀ a∈pool.free,mem a=s.mem a) :
    Pooled field {s with mem := mem} pool :=
  ⟨Seg.congr h.chain fun a ha => congrArg field.get (he a ha),h.blocks⟩

end IftopColor.PoolHeap
