import IftopColor.TextBuffer
import Mathlib.Data.List.Basic
import Mathlib.Data.List.GetD

/-!
# Editing a text in a buffer

A line with a cursor is a pair of texts, the one before the cursor and the one behind it. In
a buffer the two stand one after the other, and an editor moves the second of them with
`memmove`, over a part that is deleted or out of the way of a character that is
inserted.
-/

namespace IftopColor.TextEdit

open TextBuffer

/-- A line with a cursor. -/
structure Zipper (α : Type) where
  /-- What is before the cursor. -/
  before : List α
  /-- What is behind the cursor. -/
  after : List α

namespace Zipper

variable {α : Type}

/-- The whole line. -/
def text (z : Zipper α) : List α := z.before++z.after

/-- An empty line. -/
def clear : Zipper α := ⟨[],[]⟩

/-- The cursor goes one to the left. -/
def left (z : Zipper α) : Zipper α := ⟨z.before.dropLast,z.before.getLast?.toList++z.after⟩

/-- The cursor goes one to the right. -/
def right (z : Zipper α) : Zipper α := ⟨z.before++z.after.head?.toList,z.after.tail⟩

/-- The cursor goes to the start. -/
def home (z : Zipper α) : Zipper α := ⟨[],z.text⟩

/-- The cursor goes to the end. -/
def last (z : Zipper α) : Zipper α := ⟨z.text,[]⟩

/-- The character behind the cursor is deleted. -/
def delete (z : Zipper α) : Zipper α := ⟨z.before,z.after.tail⟩

/-- The character before the cursor is deleted. -/
def backspace (z : Zipper α) : Zipper α := ⟨z.before.dropLast,z.after⟩

/-- A character is inserted before the cursor. -/
def insert (c : α) (z : Zipper α) : Zipper α := ⟨z.before++[c],z.after⟩

/-- All but `k` characters before the cursor are deleted. -/
def erase (k : ℕ) (z : Zipper α) : Zipper α := ⟨z.before.take k,z.after⟩

variable (z : Zipper α)

/-- Moving the cursor to the left keeps the text. -/
@[simp] theorem left_text : z.left.text=z.text := by
  obtain ⟨before,after⟩ := z
  rcases List.eq_nil_or_concat' before with rfl|⟨xs,x,rfl⟩ <;> simp [left,text]

/-- Moving the cursor to the right keeps the text. -/
@[simp] theorem right_text : z.right.text=z.text := by
  obtain ⟨before,after⟩ := z
  cases after <;> simp [right,text]

/-- Moving the cursor to the start keeps the text. -/
@[simp] theorem home_text : z.home.text=z.text := rfl

/-- Moving the cursor to the end keeps the text. -/
@[simp] theorem last_text : z.last.text=z.text := List.append_nil _

/-- A step to the left takes one character from those before the cursor, if there is one. -/
theorem left_length : z.left.before.length=z.before.length-1 := List.length_dropLast

/-- A step to the right adds one character to those before the cursor, if there is one. -/
theorem right_length : z.right.before.length=min (z.before.length+1) z.text.length := by
  obtain ⟨before,after⟩ := z
  cases after <;> simp [right,text]

end Zipper

/-- `memmove`. -/
def memmove (size : ℕ) (buf : Buffer) (dst src n : ℤ) : Except Fault Buffer :=
  if 0≤ dst ∧ 0≤ src ∧ dst+n≤ size ∧ src+n≤ size then
    .ok fun k => if dst≤ k ∧ k<dst+n then buf (src+(k-dst)).toNat else buf k
  else .error (.outside (max dst src+n-1))

variable {size : ℕ} {buf : Buffer} {text xs ys zs : List Char}

/-- `memmove` within the buffer moves the characters as they were before. -/
theorem memmove_ok {dst src n : ℕ} (hd : dst+n≤ size) (hs : src+n≤ size) :
    memmove size buf dst src n=
      .ok fun k => if dst≤ k ∧ k<dst+n then buf (src+(k-dst)) else buf k := by
  rw [memmove,if_pos (by omega)]
  refine congrArg Except.ok (funext fun k => ?_)
  by_cases hk : dst≤ k ∧ k<dst+n
  · rw [if_pos hk,if_pos (by omega)]
    congr 1
    omega
  · rw [if_neg hk,if_neg (by omega)]

/-- The characters of a text and its terminator. -/
theorem holds_iff : Holds size buf text ↔
    text.length<size ∧ (∀ i≤ text.length,buf i=text.getD i nul) ∧ nul∉text := by
  constructor
  · intro h
    refine ⟨h.fits,fun i hi => ?_,fun hn => h.clean _ hn rfl⟩
    rcases Nat.lt_or_eq_of_le hi with hlt|rfl
    · rw [h.chars i hlt,List.getD_eq_getElem _ _ hlt]
    · rw [h.terminated,List.getD_eq_default _ _ (le_refl _)]
  · rintro ⟨hfits,hchars,hclean⟩
    refine ⟨hfits,fun i hi => ?_,?_,fun c hc hn => hclean (hn ▸ hc)⟩
    · rw [hchars i (Nat.le_of_lt hi),List.getD_eq_getElem _ _ hi]
    · rw [hchars _ (le_refl _),List.getD_eq_default _ _ (le_refl _)]

/-- A text in a larger block that begins with the same characters. -/
theorem holds_grow {size' : ℕ} {buf' : Buffer} (h : Holds size buf text) (hs : size≤ size')
    (hb : ∀ k<size,buf' k=buf k) : Holds size' buf' text := by
  obtain ⟨hfits,hchars,hclean⟩ := holds_iff.mp h
  refine holds_iff.mpr ⟨by omega,fun i hi => ?_,hclean⟩
  rw [hb i (by omega),hchars i hi]

/-- Writing a terminator behind the first characters cuts off the others. -/
theorem holds_truncate (h : Holds size buf (xs++ys)) :
    Holds size (Function.update buf xs.length nul) xs := by
  obtain ⟨hfits,hchars,hclean⟩ := holds_iff.mp h
  rw [List.length_append] at hfits hchars
  refine holds_iff.mpr ⟨by omega,fun i hi => ?_,fun hn => hclean (List.mem_append_left _ hn)⟩
  rcases Nat.lt_or_eq_of_le hi with hlt|rfl
  · rw [Function.update_of_ne (by omega),hchars i (by omega),List.getD_append _ _ _ _ hlt]
  · rw [Function.update_self,List.getD_eq_default _ _ (le_refl _)]

/-- The characters of what is behind a part of the text. -/
theorem getD_behind (i : ℕ) : (xs++ys).getD (xs.length+i) nul=ys.getD i nul := by
  rw [List.getD_append_right _ _ _ _ (Nat.le_add_right ..),Nat.add_sub_cancel_left]

/-- `strlen` of what is behind a part of the text. -/
theorem strlen_behind (h : Holds size buf (xs++ys)) :
    strlen size buf xs.length=.ok ys.length := by
  obtain ⟨hfits,hchars,hclean⟩ := holds_iff.mp h
  have hlen : (xs++ys).length=xs.length+ys.length := List.length_append
  obtain ⟨j,hj,hij,hjk,hstop,-⟩ :=
    scan_ok (fun c => c=nul) (by decide) (size+1) (i:=xs.length) (k:=(xs++ys).length) (by omega)
      hfits h.terminated (by omega)
  have hend : j=xs.length+ys.length := by
    by_contra hne
    have hlt : j<(xs++ys).length := by omega
    rw [hchars j (by omega),List.getD_eq_getElem _ _ hlt] at hstop
    exact hclean ((of_decide_eq_true hstop) ▸ List.getElem_mem hlt)
  rw [strlen,scanFrom,hj,ok_bind,hend]
  exact congrArg Except.ok (by omega)

/-- Moving the end of a text over the part before it deletes this part. -/
theorem delete_holds (h : Holds size buf (xs++(ys++zs))) :
    ∃ buf',memmove size buf xs.length (xs++ys).length (zs.length+1 : ℕ)=.ok buf' ∧
      Holds size buf' (xs++zs) := by
  obtain ⟨hfits,hchars,hclean⟩ := holds_iff.mp h
  simp only [List.length_append] at hfits hchars ⊢
  refine ⟨_,memmove_ok (by omega) (by omega),holds_iff.mpr ⟨?_,fun i hi => ?_,fun hn => hclean ?_⟩⟩
  · rw [List.length_append]
    omega
  · rw [List.length_append] at hi
    by_cases hlt : i<xs.length
    · rw [if_neg (by omega),hchars i (by omega),List.getD_append _ _ _ _ hlt,
        List.getD_append _ _ _ _ hlt]
    · obtain ⟨k,rfl⟩ := Nat.exists_eq_add_of_le (Nat.le_of_not_lt hlt)
      rw [if_pos (by omega),hchars _ (by omega),getD_behind,Nat.add_sub_cancel_left,Nat.add_assoc,
        getD_behind,getD_behind]
  · rcases List.mem_append.mp hn with hx|hz
    · exact List.mem_append_left _ hx
    · exact List.mem_append_right _ (List.mem_append_right _ hz)

/-- Moving the end of a text by one place makes room for a character. -/
theorem insert_holds (h : Holds size buf (xs++zs)) {c : Char} (hc : c≠nul)
    (hroom : (xs++zs).length+1<size) :
    ∃ buf',memmove size buf (xs.length+1 : ℕ) xs.length (zs.length+1 : ℕ)=.ok buf' ∧
      Holds size (Function.update buf' xs.length c) (xs++c::zs) := by
  obtain ⟨hfits,hchars,hclean⟩ := holds_iff.mp h
  simp only [List.length_append] at hroom hfits hchars
  refine ⟨_,memmove_ok (by omega) (by omega),holds_iff.mpr ⟨?_,fun i hi => ?_,fun hn => ?_⟩⟩
  · rw [List.length_append,List.length_cons]
    omega
  · rw [List.length_append,List.length_cons] at hi
    rcases Nat.lt_trichotomy i xs.length with hlt|rfl|hgt
    · rw [Function.update_of_ne (by omega),if_neg (by omega),hchars i (by omega),
        List.getD_append _ _ _ _ hlt,List.getD_append _ _ _ _ hlt]
    · rw [Function.update_self,List.getD_append_right _ _ _ _ (le_refl _),Nat.sub_self]
      rfl
    · obtain ⟨k,rfl⟩ := Nat.exists_eq_add_of_lt hgt
      have hsub : xs.length+k+1-(xs.length+1)=k := by omega
      rw [Function.update_of_ne (by omega),if_pos (by omega),hsub,hchars _ (by omega),getD_behind,
        Nat.add_assoc,getD_behind]
      rfl
  · rcases List.mem_append.mp hn with hx|hz
    · exact hclean (List.mem_append_left _ hx)
    · rcases List.mem_cons.mp hz with rfl|hz
      · exact hc rfl
      · exact hclean (List.mem_append_right _ hz)

end IftopColor.TextEdit
