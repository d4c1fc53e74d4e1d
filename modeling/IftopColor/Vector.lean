import IftopColor.CellBlock
import IftopColor.GuardedRun
import Mathlib.Tactic.Linarith

/-!
# Vectors

`vector.c` over a block of cells: pushing doubles a full vector, popping and removing
halve one that is less than half used. As long as nothing is removed from a vector that
is exactly full, and no capacity is asked for whose size in bytes wraps, the vector is
a list. A removal from a full vector moves and clears the cell behind the block.
-/

namespace IftopColor.Vector

open CellBlock GuardedRun

/-- `union _item`, a pointer or a long in one word. -/
abbrev Item := BitVec 64

/-- `sizeof(item)`. -/
def sizeofItem : ℕ := 8

/-- Number of values of a `size_t`. -/
def sizeRange : ℕ := 2^64

/-- `PTRDIFF_MAX`, the largest size in bytes that an allocator grants. -/
def ptrdiffMax : ℕ := 2^63-1

/-- Why an operation does not return. -/
inductive Stop where
  /-- A cell outside the block was accessed. -/
  | outside
  /-- The allocation was refused and the program ended. -/
  | abort
  deriving DecidableEq

/-- `struct _vector`. -/
structure Vec where
  /-- Name of the block, a new one for every reallocation. -/
  block : ℕ
  /-- Cells of the block `items` points to. -/
  items : Cells Item
  /-- Number of items the block is meant to have room for. -/
  capacity : ℕ
  /-- Number of items in use. -/
  nUsed : ℕ

/-- A pointer to an item. -/
structure Pointer where
  /-- The block it points into. -/
  block : ℕ
  /-- Index of the item. -/
  index : ℕ
  deriving DecidableEq

/-- An access outside the block stops the operation. -/
def inside {β : Type} : Option β→Except Stop β
  | none => .error .outside
  | some b => .ok b

/-- `vector_new`. -/
def vectorNew : Vec := ⟨0,List.replicate 16 (some 0),16,0⟩

/-- `xrealloc`. A smaller size may be refused as well; the program then ends, too. -/
def xrealloc (items : Cells Item) (size : ℕ) : Except Stop (Cells Item) :=
  if ptrdiffMax<size then .error .abort else .ok (resize items (size/sizeofItem))

/-- `vector_reallocate`. Sizes in bytes are computed in a `size_t`. -/
def vectorReallocate (vec : Vec) (capacity : ℕ) : Except Stop Vec :=
  if capacity<vec.nUsed ∨ capacity≤0 then .ok vec
  else do
    let items ← xrealloc vec.items (capacity*sizeofItem%sizeRange)
    let clearCount := capacity-vec.nUsed
    let items ← if 0< clearCount then
        inside (fill items vec.nUsed (clearCount*sizeofItem%sizeRange/sizeofItem) 0)
      else .ok items
    return {vec with block := vec.block+1,items := items,capacity := capacity}

/-- `vector_push_back`. -/
def vectorPushBack (vec : Vec) (elem : Item) : Except Stop Vec := do
  let vec ← if vec.nUsed=vec.capacity then vectorReallocate vec (vec.capacity*2%sizeRange)
    else .ok vec
  let items ← inside (put vec.items vec.nUsed elem)
  return {vec with items := items,nUsed := vec.nUsed+1}

/-- `vector_pop_back`. -/
def vectorPopBack (vec : Vec) : Except Stop Vec :=
  if 0<vec.nUsed then
    let vec := {vec with nUsed := vec.nUsed-1}
    if vec.nUsed<vec.capacity/2 then vectorReallocate vec (vec.capacity/2) else .ok vec
  else .ok vec

/-- `vector_remove`, for a target in the vector's block. -/
def vectorRemove (vec : Vec) (target : Pointer) : Except Stop (Vec×Option Pointer) :=
  if vec.nUsed≤ target.index then .ok (vec,none)
  else do
    let items ← if target.index<vec.nUsed-1 then
        inside (move vec.items target.index (target.index+1) (vec.nUsed-target.index))
      else .ok vec.items
    let items ← inside (fill items vec.nUsed 1 0)
    let vec := {vec with items := items,nUsed := vec.nUsed-1}
    if vec.nUsed<vec.capacity/2 ∧ vec.capacity>16 then
      let idx := target.index
      let vec ← vectorReallocate vec (vec.capacity/2)
      return (vec,some ⟨vec.block,idx⟩)
    else return (vec,some target)

/-- The vector holds a list. -/
structure Holds (vec : Vec) (list : List Item) : Prop where
  /-- As many items are in use as the list has. -/
  used : vec.nUsed=list.length
  /-- The items in use are those of the list. -/
  items : vec.items.take vec.nUsed=list.map some
  /-- The items in use fit. -/
  fits : vec.nUsed≤ vec.capacity
  /-- There is room for one item at least. -/
  room : 1≤ vec.capacity
  /-- The block is as large as the capacity says. -/
  length : vec.items.length=vec.capacity
  /-- The block was granted. -/
  granted : vec.capacity*sizeofItem≤ ptrdiffMax

variable {vec vec' : Vec} {list : List Item}

/-- A new vector holds no items. -/
theorem vectorNew_holds : Holds vectorNew [] where
  used := rfl
  items := rfl
  fits := by decide
  room := by decide
  length := List.length_replicate
  granted := by decide

/-- Below 2^61 items the size in bytes does not wrap. -/
theorem size_mod {count : ℕ} (h : count<2^61) :
    count*sizeofItem%sizeRange=count*sizeofItem ∧ count*sizeofItem%sizeRange/sizeofItem=count := by
  have hm : count*sizeofItem%sizeRange=count*sizeofItem :=
    Nat.mod_eq_of_lt (by simp only [sizeofItem,sizeRange]; omega)
  rw [hm]
  exact ⟨rfl,Nat.mul_div_cancel _ (by decide)⟩

/-- A block of another size with the same first cells. -/
theorem Holds.resized (h : Holds vec list) {capacity : ℕ} {items : Cells Item}
    (hfits : vec.nUsed≤ capacity) (hroom : 1≤ capacity) (hlength : items.length=capacity)
    (hgrant : capacity*sizeofItem≤ptrdiffMax)
    (hitems : items.take vec.nUsed=vec.items.take vec.nUsed) :
    Holds {vec with block := vec.block+1,items := items,capacity := capacity} list where
  used := h.used
  items := hitems.trans h.items
  fits := hfits
  room := hroom
  length := hlength
  granted := hgrant

/-- A reallocation changes the capacity only, or is refused. -/
theorem vectorReallocate_spec (h : Holds vec list) {capacity : ℕ} (hc : capacity<2^61) :
    vectorReallocate vec capacity=.error .abort ∨
      ∃ vec',vectorReallocate vec capacity=.ok vec' ∧ Holds vec' list ∧
        (vec.nUsed≤ capacity→1≤ capacity→vec'.capacity=capacity) := by
  have hused := h.fits
  have hlen := h.length
  obtain ⟨hsize,hcells⟩ := size_mod hc
  have hmoreLt : capacity-vec.nUsed<2^61 := by omega
  obtain ⟨-,hclear⟩ := size_mod hmoreLt
  unfold vectorReallocate
  by_cases hsame : capacity<vec.nUsed ∨ capacity≤0
  · rw [if_pos hsame]
    exact .inr ⟨vec,rfl,h,by omega⟩
  rw [if_neg hsame]
  by_cases hgrant : ptrdiffMax< capacity*sizeofItem
  · left
    simp only [xrealloc,hsize,if_pos hgrant]
    rfl
  right
  have hroom := resize_length vec.items capacity
  have hkept : (resize vec.items capacity).take vec.nUsed=vec.items.take vec.nUsed :=
    resize_take (by omega) (by omega)
  have hblock : xrealloc vec.items (capacity*sizeofItem%sizeRange)=
      .ok (resize vec.items capacity) := by
    rw [xrealloc,hcells,hsize,if_neg hgrant]
  rw [hblock]
  by_cases hmore : 0< capacity-vec.nUsed
  · have hbehind : vec.nUsed+(capacity-vec.nUsed)≤(resize vec.items capacity).length := by omega
    obtain ⟨items,hfill,hlength,htake⟩ := fill_spec hbehind (0 : Item)
    refine ⟨_,?_,h.resized (by omega) (by omega) (hlength.trans hroom) (by omega)
      ((htake _ (Nat.le_refl _)).trans hkept),fun _ _ => rfl⟩
    simp only [bind,Except.bind,if_pos hmore,hclear,hfill,inside]
    rfl
  · refine ⟨_,?_,h.resized (by omega) (by omega) hroom (by omega) hkept,
      fun _ _ => rfl⟩
    simp only [bind,Except.bind,if_neg hmore]
    rfl

/-- Two capacities in bytes fit a `size_t`. -/
theorem Holds.double (h : Holds vec list) :
    vec.capacity*2<2^61 ∧ vec.capacity*2%sizeRange=vec.capacity*2 := by
  have hg := h.granted
  simp only [sizeofItem,ptrdiffMax] at hg
  have hlt : vec.capacity*2<2^61 := by omega
  exact ⟨hlt,Nat.mod_eq_of_lt (by simp only [sizeRange]; omega)⟩

/-- A size in bytes that is refused, also one that has wrapped. -/
theorem vectorReallocate_refused (h : Holds vec list) {capacity : ℕ} (hc : 2^61≤ capacity)
    (hgrant : ptrdiffMax< capacity*sizeofItem%sizeRange) :
    vectorReallocate vec capacity=.error .abort := by
  have hused := h.fits
  have hdouble := h.double.1
  unfold vectorReallocate xrealloc
  rw [if_neg (by omega),if_pos hgrant]
  rfl

/-- A capacity whose size in bytes wraps and is granted leaves a block that is too short for it, if
the block is not left at once. -/
theorem vectorReallocate_wraps (h : Holds vec list) {capacity : ℕ} (hc : 2^61≤ capacity)
    (hgrant : ¬ptrdiffMax< capacity*sizeofItem%sizeRange) :
    vectorReallocate vec capacity=.error .outside ∨
      ∃ vec',vectorReallocate vec capacity=.ok vec' ∧ vec'.items.length<vec'.capacity := by
  have hused := h.fits
  have hdouble := h.double.1
  have hshort : capacity*sizeofItem%sizeRange/sizeofItem< capacity := by
    have hmod := Nat.mod_lt (capacity*sizeofItem) (show 0<sizeRange by decide)
    simp only [sizeofItem,sizeRange] at hmod ⊢
    omega
  have hclear : 0< capacity-vec.nUsed := by omega
  unfold vectorReallocate xrealloc
  rw [if_neg (by omega),if_neg hgrant]
  simp only [bind,Except.bind,if_pos hclear]
  cases hf : fill (resize vec.items (capacity*sizeofItem%sizeRange/sizeofItem)) vec.nUsed
      ((capacity-vec.nUsed)*sizeofItem%sizeRange/sizeofItem) 0 with
  | none => exact .inl rfl
  | some items =>
    refine .inr ⟨_,rfl,?_⟩
    change items.length< capacity
    rwa [fill_length hf,resize_length]

/-- An item put behind the others is held in the next cell. -/
theorem Holds.put (h : Holds vec list) (hroom : vec.nUsed<vec.capacity) (elem : Item) :
    ∃ items,CellBlock.put vec.items vec.nUsed elem=some items ∧
      Holds {vec with items := items,nUsed := vec.nUsed+1} (list++[elem]) := by
  obtain ⟨items,hput,hlength,htake⟩ := put_spec (x:=elem) (h.length.symm ▸ hroom)
  exact ⟨items,hput,{
    used := by
      rw [List.length_append,← h.used]
      rfl
    items := by
      rw [List.map_append,← h.items]
      exact htake
    fits := hroom
    room := h.room
    length := hlength.trans h.length
    granted := h.granted}⟩

/-- Pushing appends, or the vector cannot grow. -/
theorem vectorPushBack_spec (h : Holds vec list) (elem : Item) :
    vectorPushBack vec elem=.error .abort ∨
      ∃ vec',vectorPushBack vec elem=.ok vec' ∧ Holds vec' (list++[elem]) := by
  unfold vectorPushBack
  by_cases hfull : vec.nUsed=vec.capacity
  · obtain ⟨hlt,hmod⟩ := h.double
    rw [if_pos hfull,hmod]
    rcases vectorReallocate_spec h hlt with habort|⟨wide,hok,hw,hcap⟩
    · rw [habort]
      exact .inl rfl
    · have hroom : wide.nUsed<wide.capacity := by
        have hone := h.room
        have hwide := hcap (by omega) (by omega)
        have hsame := hw.used.trans h.used.symm
        omega
      obtain ⟨items,hput,hp⟩ := hw.put hroom elem
      rw [hok]
      refine .inr ⟨_,?_,hp⟩
      simp only [bind,Except.bind,hput,inside]
      rfl
  · obtain ⟨items,hput,hp⟩ := h.put (by have := h.fits; omega) elem
    rw [if_neg hfull]
    refine .inr ⟨_,?_,hp⟩
    simp only [bind,Except.bind,hput,inside]
    rfl

/-- With one item less in use the vector holds the items that are left. -/
theorem Holds.shorten (h : Holds vec list) {items : Cells Item} {list' : List Item}
    (hlist : list'.length=vec.nUsed-1) (hlength : items.length=vec.items.length)
    (hitems : items.take (vec.nUsed-1)=list'.map some) :
    Holds {vec with items := items,nUsed := vec.nUsed-1} list' where
  used := hlist.symm
  items := hitems
  fits := Nat.le_trans (Nat.sub_le _ _) h.fits
  room := h.room
  length := hlength.trans h.length
  granted := h.granted

/-- Half a capacity is below 2^61, so it can be asked for. -/
theorem Holds.half (h : Holds vec list) : vec.capacity/2<2^61 := by
  have := h.double.1
  omega

/-- The cells in use without the last one. -/
theorem Holds.take_pred (h : Holds vec list) :
    vec.items.take (vec.nUsed-1)=list.dropLast.map some := by
  have ht : (vec.items.take vec.nUsed).take (vec.nUsed-1)=vec.items.take (vec.nUsed-1) := by
    rw [List.take_take,Nat.min_eq_left (Nat.sub_le _ _)]
  rw [← ht,h.items,← List.map_take,h.used,List.dropLast_eq_take]

/-- Popping drops the last item, or the smaller block is refused. -/
theorem vectorPopBack_spec (h : Holds vec list) :
    vectorPopBack vec=.error .abort ∨
      ∃ vec',vectorPopBack vec=.ok vec' ∧ Holds vec' list.dropLast := by
  unfold vectorPopBack
  by_cases hsome : 0<vec.nUsed
  · rw [if_pos hsome]
    have hp : Holds {vec with nUsed := vec.nUsed-1} list.dropLast :=
      h.shorten (by rw [List.length_dropLast,h.used]) rfl h.take_pred
    by_cases hshrink : vec.nUsed-1<vec.capacity/2
    · rw [if_pos hshrink]
      rcases vectorReallocate_spec hp h.half with habort|⟨small,hok,hs,-⟩
      · exact .inl habort
      · exact .inr ⟨small,hok,hs⟩
    · rw [if_neg hshrink]
      exact .inr ⟨_,rfl,hp⟩
  · rw [if_neg hsome]
    have hnil : list=[] := List.length_eq_zero_iff.mp (by rw [← h.used]; omega)
    exact .inr ⟨vec,rfl,by rwa [hnil] at h ⊢⟩

/-- The cells in use without the one at `i`. -/
theorem Holds.take_erase (h : Holds vec list) {i : ℕ} (hi : i<vec.nUsed) :
    vec.items.take i++(vec.items.drop (i+1)).take (vec.nUsed-1-i)=(list.eraseIdx i).map some := by
  have hl : (vec.items.take vec.nUsed).take i=vec.items.take i := by
    rw [List.take_take,Nat.min_eq_left (Nat.le_of_lt hi)]
  have hr : (vec.items.drop (i+1)).take (vec.nUsed-1-i)=(vec.items.take vec.nUsed).drop (i+1) := by
    rw [List.drop_take]
    congr 1
    omega
  rw [hr,← hl,h.items,← List.map_take,← List.map_drop,← List.map_append,
    List.eraseIdx_eq_take_drop_succ]

/-- A removal that stays inside the block leaves the other items in it. -/
theorem Holds.erase (h : Holds vec list) {i : ℕ} (hi : i<vec.nUsed)
    (hroom : vec.nUsed<vec.capacity) :
    ∃ moved items,(if i<vec.nUsed-1 then inside (move vec.items i (i+1) (vec.nUsed-i))
        else .ok vec.items)=Except.ok (ε:=Stop) moved ∧
      fill moved vec.nUsed 1 0=some items ∧
      Holds {vec with items := items,nUsed := vec.nUsed-1} (list.eraseIdx i) := by
  have hlen := h.length
  have hmoved : ∃ moved,(if i<vec.nUsed-1 then inside (move vec.items i (i+1) (vec.nUsed-i))
      else .ok vec.items)=Except.ok (ε:=Stop) moved ∧ moved.length=vec.items.length ∧
      moved.take (vec.nUsed-1)=vec.items.take i++(vec.items.drop (i+1)).take (vec.nUsed-1-i) := by
    by_cases hlast : i<vec.nUsed-1
    · have hto : i+(vec.nUsed-i)≤vec.items.length := by omega
      have hfrom : i+1+(vec.nUsed-i)≤vec.items.length := by omega
      obtain ⟨moved,hmove,hlength,htake⟩ := move_spec hto hfrom
      have hn := htake (vec.nUsed-1-i) (by omega)
      rw [show i+(vec.nUsed-1-i)=vec.nUsed-1 by omega] at hn
      rw [if_pos hlast,hmove]
      exact ⟨moved,rfl,hlength,hn⟩
    · have hz : vec.nUsed-1-i=0 := by omega
      rw [if_neg hlast,hz,List.take_zero,List.append_nil,show vec.nUsed-1=i by omega]
      exact ⟨_,rfl,rfl,rfl⟩
  obtain ⟨moved,hok,hlength,htake⟩ := hmoved
  have hlast : vec.nUsed+1≤ moved.length := by omega
  obtain ⟨items,hfill,hlength',hkept⟩ := fill_spec hlast (0 : Item)
  have hlist : (list.eraseIdx i).length=vec.nUsed-1 := by
    rw [List.length_eraseIdx_of_lt (h.used ▸ hi),h.used]
  refine ⟨moved,items,hok,hfill,h.shorten hlist (hlength'.trans hlength) ?_⟩
  rw [hkept _ (Nat.sub_le _ _),htake,h.take_erase hi]

/-- A removal whose accesses are inside the block is followed by the test for
shrinking. -/
theorem vectorRemove_eq {i : ℕ} (hi : i<vec.nUsed) {moved items : Cells Item}
    (hmove : (if i<vec.nUsed-1 then inside (move vec.items i (i+1) (vec.nUsed-i))
      else .ok vec.items)=Except.ok moved) (hfill : fill moved vec.nUsed 1 0=some items) :
    vectorRemove vec ⟨vec.block,i⟩=
      if vec.nUsed-1<vec.capacity/2 ∧ vec.capacity>16 then
        (vectorReallocate {vec with items := items,nUsed := vec.nUsed-1} (vec.capacity/2)).map
          fun v => (v,some ⟨v.block,i⟩)
      else .ok ({vec with items := items,nUsed := vec.nUsed-1},some ⟨vec.block,i⟩) := by
  unfold vectorRemove
  rw [if_neg (Nat.not_le.mpr hi)]
  by_cases hlast : i<vec.nUsed-1
  · rw [if_pos hlast] at hmove
    simp only [if_pos hlast,hmove]
    simp only [bind,Except.bind,hfill,inside]
    split <;> rfl
  · rw [if_neg hlast] at hmove
    have he : vec.items=moved := Except.ok.inj hmove
    simp only [if_neg hlast,he,bind,Except.bind,hfill,inside]
    split <;> rfl

/-- Removing erases the item and returns where the next one is now, or the smaller block
is refused. -/
theorem vectorRemove_spec (h : Holds vec list) {i : ℕ} (hi : i<vec.nUsed)
    (hroom : vec.nUsed<vec.capacity) :
    vectorRemove vec ⟨vec.block,i⟩=.error .abort ∨
      ∃ vec',vectorRemove vec ⟨vec.block,i⟩=.ok (vec',some ⟨vec'.block,i⟩) ∧
        Holds vec' (list.eraseIdx i) := by
  obtain ⟨moved,items,hmove,hfill,he⟩ := h.erase hi hroom
  rw [vectorRemove_eq hi hmove hfill]
  by_cases hshrink : vec.nUsed-1<vec.capacity/2 ∧ vec.capacity>16
  · rw [if_pos hshrink]
    rcases vectorReallocate_spec he h.half with habort|⟨small,hok,hs,-⟩
    · rw [habort]
      exact .inl rfl
    · rw [hok]
      exact .inr ⟨small,rfl,hs⟩
  · rw [if_neg hshrink]
    exact .inr ⟨_,rfl,he⟩

/-- A removal leaves the block exactly if the vector is full. -/
theorem vectorRemove_outside_iff (h : Holds vec list) {i : ℕ} (hi : i<vec.nUsed) :
    vectorRemove vec ⟨vec.block,i⟩=.error .outside ↔ vec.nUsed=vec.capacity := by
  constructor
  · intro hout
    by_contra hne
    have hfits := h.fits
    rcases vectorRemove_spec h hi (by omega) with habort|⟨_,hok,-⟩
    · rw [habort] at hout
      cases hout
    · rw [hok] at hout
      cases hout
  · intro hfull
    have hlen := h.length
    unfold vectorRemove
    rw [if_neg (Nat.not_le.mpr hi)]
    by_cases hlast : i<vec.nUsed-1
    · have hmove : move vec.items i (i+1) (vec.nUsed-i)=none :=
        move_eq_none_iff.mpr (.inr (by omega))
      simp only [if_pos hlast,hmove,inside]
      rfl
    · have hfill : fill vec.items vec.nUsed 1 0=none := fill_eq_none_iff.mpr (by omega)
      simp only [if_neg hlast,bind,Except.bind,hfill,inside]

/-- What a caller does with a vector. -/
inductive Op where
  /-- `vector_push_back`. -/
  | pushBack (elem : Item)
  /-- `vector_pop_back`. -/
  | popBack
  /-- `vector_remove` of the item with an index. -/
  | remove (i : ℕ)
  /-- `vector_reallocate`. -/
  | reallocate (capacity : ℕ)

/-- A vector, and the list that the same operations make. -/
structure State where
  /-- The vector. -/
  vec : Vec
  /-- The list. -/
  list : List Item

/-- A new vector and the empty list. -/
def State.init : State := ⟨vectorNew,[]⟩

/-- An operation on the vector, with the pointer it returns. -/
def perform (vec : Vec) : Op→Except Stop (Vec×Option Pointer)
  | .pushBack elem => (vectorPushBack vec elem).map (·,none)
  | .popBack => (vectorPopBack vec).map (·,none)
  | .remove i => vectorRemove vec ⟨vec.block,i⟩
  | .reallocate capacity => (vectorReallocate vec capacity).map (·,none)

/-- The operation on lists. -/
def listed (list : List Item) : Op→List Item
  | .pushBack elem => list++[elem]
  | .popBack => list.dropLast
  | .remove i => list.eraseIdx i
  | .reallocate _ => list

/-- A step of a run; an operation that does not return ends the run. -/
def next (s : State) (op : Op) : Option State :=
  match perform s.vec op with
  | .ok (vec,_) => some ⟨vec,listed s.list op⟩
  | .error _ => none

/-- What the operations are given: an index in use, and a capacity that is a
`size_t`. -/
def Called (s : State) : Op→Prop
  | .remove i => i<s.vec.nUsed
  | .reallocate capacity => capacity<sizeRange
  | _ => True

/-- Calls that keep away from the end of a full vector and from sizes that wrap and are granted. -/
def Careful (s : State) : Op→Prop
  | .remove i => i<s.vec.nUsed ∧ s.vec.nUsed<s.vec.capacity
  | .reallocate capacity => capacity<2^61 ∨ ptrdiffMax< capacity*sizeofItem%sizeRange
  | _ => True

instance (s : State) (op : Op) : Decidable (Careful s op) :=
  match op with
  | .remove _ => inferInstanceAs (Decidable (_ ∧ _))
  | .reallocate _ => inferInstanceAs (Decidable (_ ∨ _))
  | .pushBack _ => inferInstanceAs (Decidable True)
  | .popBack => inferInstanceAs (Decidable True)

/-- The state refines a list. -/
def State.Refined (s : State) : Prop := Holds s.vec s.list

/-- What one operation does: it stays inside the block, and a removal returns the position
of the item that followed. -/
structure Behaves (s : State) (op : Op) : Prop where
  /-- Every access is inside the block. -/
  inside : perform s.vec op≠ .error .outside
  /-- The pointer a removal returns. -/
  returned : ∀ i vec p,op=.remove i→perform s.vec op=.ok (vec,p)→
    p=some ⟨vec.block,i⟩ ∧ ∀ x,s.list[i+1]? =some x→vec.items[i]? =some (some x)

/-- A careful operation returns with the list of that operation, or it ends the program. -/
theorem perform_spec {s : State} (h : s.Refined) {op : Op} (hc : Careful s op) :
    perform s.vec op=.error .abort ∨ ∃ vec p,perform s.vec op=.ok (vec,p) ∧
      Holds vec (listed s.list op) ∧ ∀ i,op=.remove i→p=some ⟨vec.block,i⟩ := by
  cases op with
  | pushBack elem =>
    rcases vectorPushBack_spec h elem with he|⟨vec,hok,hv⟩
    · exact .inl (by rw [perform,he]; rfl)
    · exact .inr ⟨vec,none,by rw [perform,hok]; rfl,hv,nofun⟩
  | popBack =>
    rcases vectorPopBack_spec h with he|⟨vec,hok,hv⟩
    · exact .inl (by rw [perform,he]; rfl)
    · exact .inr ⟨vec,none,by rw [perform,hok]; rfl,hv,nofun⟩
  | remove i =>
    rcases vectorRemove_spec h hc.1 hc.2 with he|⟨vec,hok,hv⟩
    · exact .inl he
    · refine .inr ⟨vec,_,hok,hv,fun j hj => ?_⟩
      cases hj
      rfl
  | reallocate capacity =>
    by_cases hsmall : capacity<2^61
    · rcases vectorReallocate_spec h hsmall with he|⟨vec,hok,hv,-⟩
      · exact .inl (by rw [perform,he]; rfl)
      · exact .inr ⟨vec,none,by rw [perform,hok]; rfl,hv,nofun⟩
    · have he := vectorReallocate_refused h (Nat.le_of_not_lt hsmall) (hc.resolve_left hsmall)
      exact .inl (by rw [perform,he]; rfl)

/-- A capacity that is not careful makes the vector leave its block, or leaves one that is too
short. -/
theorem reallocate_careless {s : State} (h : s.Refined) {capacity : ℕ}
    (hc : ¬Careful s (.reallocate capacity)) :
    perform s.vec (.reallocate capacity)=.error .outside ∨
      ∃ vec p,perform s.vec (.reallocate capacity)=.ok (vec,p) ∧ vec.items.length<vec.capacity := by
  obtain ⟨hlarge,hgrant⟩ := not_or.mp hc
  rcases vectorReallocate_wraps h (Nat.le_of_not_lt hlarge) hgrant with he|⟨vec,hok,hshort⟩
  · exact .inl (by rw [perform,he]; rfl)
  · exact .inr ⟨vec,none,by rw [perform,hok]; rfl,hshort⟩

/-- The item that followed a removed one is at its position. -/
theorem Holds.followed {i : ℕ} {x : Item} (h : Holds vec (list.eraseIdx i))
    (hx : list[i+1]? =some x) : vec.items[i]? =some (some x) := by
  have he : (list.eraseIdx i)[i]? =some x := by
    rw [List.getElem?_eraseIdx_of_ge (Nat.le_refl i),hx]
  have hi : i<vec.nUsed := by
    rw [h.used]
    exact (List.getElem?_eq_some_iff.mp he).1
  rw [← List.getElem?_take_of_lt hi,h.items,List.getElem?_map,he]
  rfl

/-- Every operation that is careful does what it does on the list. -/
theorem behaves_of_careful {s : State} (h : s.Refined) {op : Op} (hc : Careful s op) :
    Behaves s op := by
  rcases perform_spec h hc with he|⟨vec,p,hok,hv,hp⟩
  · exact ⟨by rw [he]; nofun,fun _ _ _ _ hr => by rw [he] at hr; cases hr⟩
  · refine ⟨by rw [hok]; nofun,fun i vec' p' hop hr => ?_⟩
    obtain ⟨rfl,rfl⟩ : vec=vec' ∧ p=p' := by
      rw [hok] at hr
      cases hr
      exact ⟨rfl,rfl⟩
    subst hop
    exact ⟨hp i rfl,fun x => hv.followed⟩

/-- Careful steps keep the refinement. -/
theorem next_refined (s : State) (op : Op) (s' : State) (h : s.Refined) (hc : Careful s op)
    (hn : next s op=some s') : s'.Refined := by
  unfold next at hn
  rcases perform_spec h hc with he|⟨vec,p,hok,hv,-⟩
  · rw [he] at hn
    cases hn
  · rw [hok] at hn
    cases hn
    exact hv

/-- In a run that removes nothing from a full vector and is granted no size that wraps, the vector
refines a list and every operation of that kind stays inside the block. From a vector that is full
every removal leaves the block, and a size that wraps and is granted leaves a block that is too
short, if the block is not left at once. -/
theorem vector_refines_list {s : State} (h : Run next Careful State.init s) :
    (s.vec.nUsed=s.list.length ∧ s.vec.items.take s.vec.nUsed=s.list.map some) ∧
      s.vec.nUsed≤ s.vec.capacity ∧ 1≤ s.vec.capacity ∧ s.vec.items.length=s.vec.capacity ∧
      (∀ op,Careful s op→Behaves s op) ∧
      (∀ i<s.vec.nUsed,perform s.vec (.remove i)=.error .outside ↔ s.vec.nUsed=s.vec.capacity) ∧
      ∀ capacity,¬Careful s (.reallocate capacity)→
        perform s.vec (.reallocate capacity)=.error .outside ∨
          ∃ vec p,perform s.vec (.reallocate capacity)=.ok (vec,p) ∧
            vec.items.length<vec.capacity := by
  have hr : s.Refined := h.invariant vectorNew_holds next_refined
  exact ⟨⟨hr.used,hr.items⟩,hr.fits,hr.room,hr.length,fun _ => behaves_of_careful hr,
    fun _ => vectorRemove_outside_iff hr,fun _ => reallocate_careless hr⟩

/-- Seventeen items are pushed and two of them are removed again. -/
def shrinking : List Op :=
  (List.range 17).map (fun i => Op.pushBack (BitVec.ofNat 64 i))++[.remove 0,.remove 3]

/-- The vector grows and shrinks, and holds the fifteen items that are left. -/
theorem vector_refines_list_shrunk : ∃ s,Run next Careful State.init s ∧
    s.vec.capacity=16 ∧ s.vec.items.take s.vec.nUsed=
      [1,2,3,5,6,7,8,9,10,11,12,13,14,15,16].map fun i => some (BitVec.ofNat 64 i) := by
  have hany : (shrinking.foldlM (fun s op => if Careful s op then next s op else none)
      State.init).any (fun s => decide (s.vec.capacity=16) &&
        decide (s.list=[1,2,3,5,6,7,8,9,10,11,12,13,14,15,16].map (BitVec.ofNat 64)))=true := by
    decide +kernel
  obtain ⟨s,hs,hall⟩ := (Option.any_eq_true _ _).mp hany
  obtain ⟨hcapacity,hlist⟩ := Bool.and_eq_true_iff.mp hall
  have hrun : Run next Careful State.init s := Run.init.foldlM hs
  refine ⟨s,hrun,of_decide_eq_true hcapacity,?_⟩
  have hitems := (vector_refines_list hrun).1.2
  have hlist' : s.list=_ := of_decide_eq_true hlist
  rw [hitems,hlist',List.map_map]
  rfl

/-- Sixteen items fill a new vector, and removing the first of them leaves the block. -/
theorem remove_from_full : ∃ s,(List.replicate 16 (Op.pushBack 0)).foldlM next State.init=some s ∧
    Called s (.remove 0) ∧ ¬Behaves s (.remove 0) :=
  ⟨_,rfl,Nat.zero_lt_succ 15,fun h => h.inside rfl⟩

end IftopColor.Vector
