import Mathlib.Data.List.Forall2
import Mathlib.Data.Int.Init
import Mathlib.Tactic.Linarith

/-!
# Arrays that double

An array with a capacity in an `int`, which is doubled when the array is full. The size
of the new block is computed in a `size_t`, and an allocator decides by this size; it has
nothing larger than half of the address space, so that a capacity that is too large for
an `int` is never granted. A refused array is emptied. As long as all requests are
granted, the array is the list of what was appended.
-/

namespace IftopColor.GrowingArray

/-- `PTRDIFF_MAX`. -/
def ptrdiffMax : ℕ := 2^63-1

/-- Which sizes in bytes are granted. -/
structure Allocator where
  /-- A request of this size succeeds. -/
  grants : ℕ→Bool
  /-- No object is larger. -/
  bounded : ∀ n,grants n=true→n≤ptrdiffMax

/-- An allocator that has all that it may have. -/
def Allocator.ample : Allocator := ⟨fun n => decide (n≤ptrdiffMax),fun _ => of_decide_eq_true⟩

/-- What an array grows by. -/
structure Layout where
  /-- Capacity of the first block. -/
  initial : ℕ
  /-- Bytes of an element. -/
  size : ℕ
  /-- The first block has room. -/
  initial_pos : 0< initial
  /-- The first capacity is an `int`. -/
  initial_lt : initial<2^31
  /-- Elements have bytes. -/
  size_pos : 0<size
  /-- Elements are small. -/
  size_lt : size<2^32

/-- An array. -/
structure Growing (α : Type) where
  /-- Elements in use. -/
  entries : List α
  /-- Elements that the block has room for. -/
  cap : ℕ
  /-- Elements in use are in the block. -/
  fits : entries.length≤cap
  /-- The capacity is an `int`. -/
  cap_lt : cap<2^31

variable {α β : Type}

/-- An array without block. -/
def Growing.empty : Growing α := ⟨[],0,Nat.le_refl _,by decide⟩

/-- The block without its elements. -/
def Growing.clear (t : Growing α) : Growing α := ⟨[],t.cap,Nat.zero_le _,t.cap_lt⟩

/-- Size in bytes of a block, by the capacity that the `int` then has. -/
def Layout.request (l : Layout) (cap : ℕ) : ℕ := ((cap : ℤ).bmod (2^32)*l.size%2^64).toNat

/-- The next capacity. -/
def Layout.double (l : Layout) (cap : ℕ) : ℕ := if cap≠0 then cap*2 else l.initial

/-- The size of a block whose capacity does not fit an `int` is that of a negative one. -/
theorem Layout.request_wrap (l : Layout) {cap : ℕ} (hlow : 2^31≤cap) (hhigh : cap<2^32) :
    (2^63 : ℤ)≤l.request cap := by
  have hsize := l.size_lt
  have hpos := l.size_pos
  have hneg : (cap : ℤ).bmod (2^32)=cap-2^32 := by
    rw [Int.bmod_def]
    push_cast
    split_ifs <;> omega
  have hle : -(2^63 : ℤ)≤(cap-2^32)*l.size := by nlinarith
  have hlt : ((cap : ℤ)-2^32)*l.size<0 := by nlinarith
  have hwrap : ((cap : ℤ)-2^32)*l.size%2^64=((cap : ℤ)-2^32)*l.size+2^64 := by
    rw [←Int.add_emod_right,Int.emod_eq_of_lt] <;> linarith
  have hsum : (2^63 : ℤ)≤((cap : ℤ)-2^32)*l.size+2^64 := by linarith
  unfold Layout.request
  rw [hneg,hwrap]
  exact hsum.trans (Int.self_le_toNat _)

/-- A capacity that is granted fits in an `int`. -/
theorem Layout.lt_of_grants {a : Allocator} {l : Layout} {cap : ℕ} (hcap : cap<2^32)
    (h : a.grants (l.request cap)=true) : cap<2^31 := by
  by_contra hge
  have hbound : (l.request cap : ℤ)≤(ptrdiffMax : ℤ) := Int.ofNat_le.mpr (a.bounded _ h)
  have hmax : (ptrdiffMax : ℤ)=2^63-1 := by norm_num [ptrdiffMax]
  have hwrap := l.request_wrap (Nat.le_of_not_lt hge) hcap
  linarith

/-- The next capacity is positive and no larger than an unsigned `int`. -/
theorem Layout.double_spec (l : Layout) {cap : ℕ} (h : cap<2^31) :
    cap+1≤l.double cap ∧ l.double cap<2^32 := by
  have hpos := l.initial_pos
  have hlt := l.initial_lt
  unfold Layout.double
  split <;> omega

/-- Append an element: to the block, or to a larger one if it is full and one is granted. -/
def Growing.append (a : Allocator) (l : Layout) (t : Growing α) (x : α) : Growing α :=
  if hroom : t.entries.length<t.cap then
    ⟨t.entries++[x],t.cap,by rw [List.length_append]; exact hroom,t.cap_lt⟩
  else if hgrant : a.grants (l.request (l.double t.cap))=true then
    ⟨t.entries++[x],l.double t.cap,by
      have := t.fits
      have := (l.double_spec t.cap_lt).1
      rw [List.length_append,List.length_singleton]
      omega,l.lt_of_grants (l.double_spec t.cap_lt).2 hgrant⟩
  else .empty

variable {a : Allocator} {l : Layout} {t : Growing α} {x : α}

/-- Nothing is refused when an element is appended. -/
def Growing.Grants (a : Allocator) (l : Layout) (t : Growing α) : Prop :=
  t.entries.length<t.cap ∨ a.grants (l.request (l.double t.cap))=true

instance (a : Allocator) (l : Layout) (t : Growing α) : Decidable (t.Grants a l) :=
  inferInstanceAs (Decidable (t.entries.length<t.cap ∨ _=true))

/-- Nothing is refused when elements are appended one after the other. -/
def Growing.Affords (a : Allocator) (l : Layout) : Growing α→List α→Prop
  | _,[] => True
  | t,x::xs => t.Grants a l ∧ Growing.Affords a l (t.append a l x) xs

/-- An array for which memory is refused is emptied. -/
theorem Growing.append_of_not_grants (h : ¬t.Grants a l) (x : α) : t.append a l x=.empty := by
  obtain ⟨hroom,hgrant⟩ := not_or.mp h
  rw [Growing.append,dif_neg hroom,dif_neg hgrant]

/-- The element comes behind the others. -/
theorem Growing.Grants.entries_append (h : t.Grants a l) (x : α) :
    (t.append a l x).entries=t.entries++[x] := by
  unfold Growing.append
  split
  · rfl
  · rw [dif_pos (h.resolve_left ‹_›)]

/-- All elements come behind the others. -/
theorem Growing.Affords.entries_foldl {xs : List α} (h : t.Affords a l xs) :
    (xs.foldl (Growing.append a l) t).entries=t.entries++xs := by
  induction xs generalizing t with
  | nil => exact (List.append_nil _).symm
  | cons x xs ih =>
    obtain ⟨hfirst,hrest⟩ := h
    rw [List.foldl_cons,ih hrest,hfirst.entries_append,List.append_assoc]
    rfl

/-- Two arrays with the same block and related elements. -/
structure Growing.Related (R : α→β→Prop) (t : Growing α) (u : Growing β) : Prop where
  /-- Elements are related one by one. -/
  entries : List.Forall₂ R t.entries u.entries
  /-- Both arrays have the same capacity. -/
  cap : t.cap=u.cap

/-- Appending related elements keeps arrays related, also when they are refused. -/
theorem Growing.Related.append {R : α→β→Prop} {u : Growing β} {y : β} (h : t.Related R u)
    (hxy : R x y) : (t.append a l x).Related R (u.append a l y) := by
  have hlen := h.entries.length_eq
  have hcap := h.cap
  have hboth : List.Forall₂ R (t.entries++[x]) (u.entries++[y]) :=
    List.rel_append h.entries (.cons hxy .nil)
  unfold Growing.append
  by_cases hroom : t.entries.length<t.cap
  · have hroom' : u.entries.length<u.cap := by omega
    rw [dif_pos hroom,dif_pos hroom']
    exact ⟨hboth,hcap⟩
  · have hroom' : ¬u.entries.length<u.cap := by omega
    rw [dif_neg hroom,dif_neg hroom']
    by_cases hgrant : a.grants (l.request (l.double t.cap))=true
    · have hgrant' : a.grants (l.request (l.double u.cap))=true := hcap ▸ hgrant
      rw [dif_pos hgrant,dif_pos hgrant']
      exact ⟨hboth,congrArg l.double hcap⟩
    · have hgrant' : ¬a.grants (l.request (l.double u.cap))=true := hcap ▸ hgrant
      rw [dif_neg hgrant,dif_neg hgrant']
      exact ⟨.nil,rfl⟩

end IftopColor.GrowingArray
