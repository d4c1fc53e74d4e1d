import IftopColor.TextBuffer
import Mathlib.Data.List.GetD
import Mathlib.Data.List.Infix

/-!
# Copies of a bounded number of characters

`strncpy` on buffers with checked accesses. It reads the source up to its terminator,
fills the rest of what it was told to write with terminators, and adds none when the
source is as long as that. A buffer keeps a text when it holds the longest part of it,
from its start on, for which there is room.
-/

namespace IftopColor.BoundedCopy

open TextBuffer

/-- A string somewhere in memory. -/
structure Source where
  /-- Size of the memory it stands in. -/
  size : ℕ
  /-- Contents of this memory. -/
  buf : Buffer
  /-- The characters of the field. -/
  text : List Char
  /-- The characters stand at its start, with a terminator behind them. -/
  holds : Holds size buf text

/-- Write a number of terminators. -/
def pad (size : ℕ) (dst : Buffer) (i : ℤ) : ℕ→Except Fault Buffer
  | 0 => .ok dst
  | n+1 => do
    let dst ← put size dst i nul
    pad size dst (i+1) n

/-- The rest of a `strncpy`, from an index on. -/
def copyFrom (size : ℕ) (dst : Buffer) (srcSize : ℕ) (src : Buffer) (i : ℤ) :
    ℕ→Except Fault Buffer
  | 0 => .ok dst
  | n+1 => do
    let c ← get srcSize src i
    if c=nul then pad size dst i (n+1)
    else do
      let dst ← put size dst i c
      copyFrom size dst srcSize src (i+1) n

/-- `strncpy`. -/
def strncpy (size : ℕ) (dst : Buffer) (srcSize : ℕ) (src : Buffer) (n : ℕ) :
    Except Fault Buffer :=
  copyFrom size dst srcSize src 0 n

/-- A `strncpy` of one character less, and a terminator behind it. -/
def copyTerminated (size : ℕ) (dst : Buffer) (srcSize : ℕ) (src : Buffer) (n : ℕ) :
    Except Fault Buffer := do
  let dst ← strncpy size dst srcSize src (n-1)
  put size dst (n-1 : ℕ) nul

/-- The buffer has a terminator, and before it the longest part of the text from its start on
for which there is room. -/
def Kept (size : ℕ) (buf : Buffer) (text : List Char) : Prop :=
  ∃ part,Holds size buf part ∧ part<+:text ∧ ∀ q,q<+:text→q.length<size→q.length≤part.length

variable {size srcSize n : ℕ} {dst src : Buffer} {text : List Char}

/-- There is room for all characters but one. -/
theorem kept_iff (hsize : 0<size) :
    Kept size dst text ↔ Holds size dst (text.take (size-1)) := by
  constructor
  · rintro ⟨part,hh,hp,hmax⟩
    have hfits := hh.fits
    have hle := hmax (text.take (size-1)) (List.take_prefix _ _) (by
      rw [List.length_take]
      omega)
    have hlen := hp.length_le
    rw [List.length_take] at hle
    have hpart : part=text.take (size-1) := by
      rw [List.prefix_iff_eq_take.mp hp]
      exact List.take_eq_take_iff.mpr (by omega)
    rwa [hpart] at hh
  · intro hh
    refine ⟨_,hh,List.take_prefix _ _,fun q hq hlen => ?_⟩
    have := hq.length_le
    rw [List.length_take]
    omega

/-- A text that fits is kept as a whole. -/
theorem kept_whole_iff (h : text.length<size) : Kept size dst text ↔ Holds size dst text := by
  rw [kept_iff (Nat.zero_lt_of_lt h),List.take_of_length_le (by omega)]

/-- What is kept of the part for which there is room is kept of the text. -/
theorem kept_take_iff (hsize : 0<size) :
    Kept size dst (text.take (size-1)) ↔ Kept size dst text := by
  rw [kept_iff hsize,kept_iff hsize,List.take_take,Nat.min_self]

/-- Terminators are written from the index on, and nothing else. -/
theorem pad_ok (dst : Buffer) {i n : ℕ} (h : i+n≤ size) :
    ∃ buf,pad size dst i n=.ok buf ∧ ∀ k,buf k=if i≤ k ∧ k< i+n then nul else dst k := by
  induction n generalizing i dst with
  | zero =>
    refine ⟨dst,rfl,fun k => ?_⟩
    rw [if_neg (by omega)]
  | succ n ih =>
    obtain ⟨buf,hbuf,hk⟩ := ih (Function.update dst i nul) (i:=i+1) (by omega)
    refine ⟨buf,?_,fun k => ?_⟩
    · rw [pad,put_ok (by omega),ok_bind]
      exact_mod_cast hbuf
    · rw [hk]
      by_cases hi : k=i
      · subst hi
        rw [if_neg (by omega),if_pos (by omega),Function.update_self]
      · rw [Function.update_of_ne hi]
        split_ifs <;> first | rfl | omega

/-- Characters of the source are written from the index on, and terminators behind them. -/
theorem copyFrom_ok (hs : Holds srcSize src text) (dst : Buffer) {i : ℕ} (hi : i≤text.length)
    (h : i+n≤ size) :
    ∃ buf,copyFrom size dst srcSize src i n=.ok buf ∧
      ∀ k,buf k=if i≤ k ∧ k< i+n then text.getD k nul else dst k := by
  have hfits := hs.fits
  induction n generalizing i dst with
  | zero =>
    refine ⟨dst,rfl,fun k => ?_⟩
    rw [if_neg (by omega)]
  | succ n ih =>
    rw [copyFrom,get_ok (by omega),ok_bind]
    rcases Nat.eq_or_lt_of_le hi with rfl|hlt
    · -- the terminator of the source
      rw [hs.terminated,if_pos rfl]
      obtain ⟨buf,hbuf,hk⟩ := pad_ok dst h
      refine ⟨buf,hbuf,fun k => ?_⟩
      rw [hk]
      split_ifs with hin
      · rw [List.getD_eq_default _ _ hin.1]
      · rfl
    · have hne : src i≠nul := by
        rw [hs.chars i hlt]
        exact hs.clean _ (List.getElem_mem hlt)
      obtain ⟨buf,hbuf,hk⟩ := ih (Function.update dst i (src i)) (i:=i+1) hlt (by omega)
      refine ⟨buf,?_,fun k => ?_⟩
      · rw [if_neg hne,put_ok (by omega),ok_bind]
        exact_mod_cast hbuf
      · rw [hk]
        by_cases hki : k=i
        · subst hki
          rw [if_neg (by omega),if_pos (by omega),Function.update_self,hs.chars k hlt,
            List.getD_eq_getElem _ _ hlt]
        · rw [Function.update_of_ne hki]
          split_ifs <;> first | rfl | omega

/-- `strncpy` writes the text and terminators up to `n`, and leaves the rest of the field. -/
theorem strncpy_ok (hs : Holds srcSize src text) (dst : Buffer) (h : n≤ size) :
    ∃ buf,strncpy size dst srcSize src n=.ok buf ∧
      ∀ k,buf k=if k<n then text.getD k nul else dst k := by
  have hroom : 0+n≤ size := by omega
  obtain ⟨buf,hbuf,hk⟩ := copyFrom_ok hs dst (Nat.zero_le _) hroom
  refine ⟨buf,hbuf,fun k => ?_⟩
  rw [hk,Nat.zero_add]
  simp only [Nat.zero_le,true_and]

/-- A text is held where its characters stand with a terminator. -/
theorem holds_of_getD (hclean : ∀ c∈text,c≠nul) (h : text.length<size)
    (hk : ∀ k≤text.length,dst k=text.getD k nul) : Holds size dst text where
  fits := h
  chars := fun i hi => by rw [hk i hi.le,List.getD_eq_getElem _ _ hi]
  terminated := by rw [hk _ (Nat.le_refl _),List.getD_eq_default _ _ (Nat.le_refl _)]
  clean := hclean

/-- A copy of as many characters as there is room for is kept if the text is shorter. -/
theorem strncpy_kept_iff (hs : Holds srcSize src text) (dst : Buffer) :
    (∃ buf,strncpy size dst srcSize src size=.ok buf ∧ Kept size buf text) ↔ text.length<size := by
  obtain ⟨buf,hbuf,hk⟩ := strncpy_ok hs dst (Nat.le_refl size)
  constructor
  · rintro ⟨buf',hbuf',part,hh,hp,-⟩
    rw [hbuf] at hbuf'
    cases hbuf'
    by_contra hlong
    have hfits := hh.fits
    have hterm := hh.terminated
    rw [hk,if_pos hfits,List.getD_eq_getElem _ _ (by omega)] at hterm
    exact hs.clean _ (List.getElem_mem _) hterm
  · intro hlt
    refine ⟨buf,hbuf,(kept_whole_iff hlt).mpr (holds_of_getD hs.clean hlt fun k hle => ?_)⟩
    rw [hk,if_pos (by omega)]

/-- A copy with a terminator behind it is kept. -/
theorem copyTerminated_kept (hs : Holds srcSize src text) (dst : Buffer) (hsize : 0<size) :
    ∃ buf,copyTerminated size dst srcSize src size=.ok buf ∧ Kept size buf text := by
  obtain ⟨buf,hbuf,hk⟩ := strncpy_ok hs dst (Nat.sub_le size 1)
  have hclean : ∀ c∈text.take (size-1),c≠nul := fun c hc => hs.clean c (List.mem_of_mem_take hc)
  refine ⟨Function.update buf (size-1) nul,?_,(kept_iff hsize).mpr ?_⟩
  · rw [copyTerminated,hbuf,ok_bind,put_ok (by omega)]
  · refine holds_of_getD hclean ?_ fun k hle => ?_
    · rw [List.length_take]
      omega
    rw [List.length_take] at hle
    by_cases hlast : k=size-1
    · rw [hlast,Function.update_self,List.getD_eq_default]
      rw [List.length_take]
      omega
    · rw [Function.update_of_ne hlast,hk,if_pos (by omega),List.getD_eq_getElem?_getD,
        List.getD_eq_getElem?_getD,List.getElem?_take_of_lt (by omega)]

/-- A field that keeps a text is terminated, so that a field that is no larger keeps the text when
it is copied there. -/
theorem Kept.copyTerminated (h : Kept srcSize src text) (dst : Buffer) (hsize : 0<size)
    (hle : size≤ srcSize) :
    ∃ buf,BoundedCopy.copyTerminated size dst srcSize src size=.ok buf ∧ Kept size buf text := by
  have hs := (kept_iff (by omega)).mp h
  obtain ⟨buf,hbuf,hk⟩ := copyTerminated_kept hs dst hsize
  refine ⟨buf,hbuf,(kept_iff hsize).mpr ?_⟩
  rwa [kept_iff hsize,List.take_take,Nat.min_eq_left (by omega)] at hk

/-- A whole field that is copied with its own size keeps its text. -/
theorem Kept.strncpy (h : Kept size src text) (dst : Buffer) (hsize : 0<size) :
    ∃ buf,BoundedCopy.strncpy size dst size src size=.ok buf ∧ Kept size buf text := by
  have hs := (kept_iff hsize).mp h
  have hlen : (text.take (size-1)).length<size := by
    rw [List.length_take]
    omega
  obtain ⟨buf,hbuf,hk⟩ := (strncpy_kept_iff hs dst).mpr hlen
  exact ⟨buf,hbuf,(kept_take_iff hsize).mp hk⟩

/-- A field that keeps a text starts with a terminator if the text is empty. -/
theorem Kept.first_iff (h : Kept size dst text) (hsize : 1<size) : dst 0=nul ↔ text=[] := by
  have hh := (kept_iff (by omega)).mp h
  cases text with
  | nil => simpa using hh.terminated
  | cons c cs =>
    have hlen : 0<((c::cs).take (size-1)).length := by
      rw [List.length_take,List.length_cons]
      omega
    have hne := hh.clean _ (List.getElem_mem hlen)
    rw [hh.chars 0 hlen]
    simpa using hne

/-- The string of a list of characters. -/
def Source.ofList (text : List Char) (hclean : ∀ c∈text,c≠nul) : Source where
  size := text.length+1
  buf := fun i => text.getD i nul
  text := text
  holds := holds_of_getD hclean (Nat.lt_succ_self _) fun _ _ => rfl

end IftopColor.BoundedCopy
