import IftopColor.Edline
import Mathlib.Data.List.DropRight

/-!
# Erasing a word

`^W` in `edline` is meant to delete the blanks before the cursor and the word before
them. Its two scans look at the character at the cursor first and end at the character they
stop at, so that the blank in front of the word is deleted as well, or only blanks are.
It deletes the word exactly if there is no blank in front of it, and if no blanks
behind it are taken for the end of another one.
-/

namespace IftopColor.WordErase

open TextBuffer TextEdit Edline

/-- The text before the cursor without its last word and the blanks behind that. -/
def wordErased (before : List Char) : List Char :=
  (before.rdropWhile isspace).rdropWhile fun c => !isspace c

/-- The last word of a text. -/
def lastWord (before : List Char) : List Char :=
  (before.rdropWhile isspace).rtakeWhile fun c => !isspace c

/-- The blanks behind the last word. -/
def lastBlanks (before : List Char) : List Char := before.rtakeWhile isspace

/-- Texts and cursors for which `^W` does what it is meant to do: there is one word at most before
the cursor and no blank in front of it, and the cursor is not behind a blank, unless
that is the first character or the cursor is at a blank, too. -/
def Erasable (z : CharZipper) : Prop :=
  wordErased z.before=[] ∧ (z.before.length≤1 ∨ lastBlanks z.before=[] ∨
    isspace (z.after.headD nul)=true)

variable {z : CharZipper} {text before : List Char} {stop : Char→Bool} {i j : ℕ}

/-- A text is what is left, the word and the blanks. -/
theorem split_eq (before : List Char) :
    wordErased before++(lastWord before++lastBlanks before)=before := by
  rw [wordErased,lastWord,lastBlanks,← List.append_assoc,List.rdropWhile_append_rtakeWhile,
    List.rdropWhile_append_rtakeWhile]

/-- A character of the last word is no blank. -/
theorem lastWord_spec {c : Char} (h : c∈lastWord before) : isspace c=false := by
  simpa using List.mem_rtakeWhile_imp h

/-- A character of the last blanks is a blank. -/
theorem lastBlanks_spec {c : Char} (h : c∈lastBlanks before) : isspace c=true :=
  List.mem_rtakeWhile_imp h

/-- What is left ends where a word began. -/
theorem lastWord_ne_nil (h : wordErased before≠[]) : lastWord before≠[] := by
  have hne : before.rdropWhile isspace≠[] := by
    intro hnil
    exact h (by rw [wordErased,hnil,List.rdropWhile_nil])
  rw [lastWord,Ne,List.rtakeWhile_eq_nil_iff,not_forall]
  refine ⟨hne,fun hlast => ?_⟩
  have hblank := List.rdropWhile_last_not isspace before hne
  exact hlast (by simpa using hblank)

/-- A backward scan stops at the nearest character that stops it, or at the start. -/
theorem backTo_spec (stop : Char→Bool) (text : List Char) (i : ℕ) :
    (backTo stop text i=0 ∨ stop (text.getD (backTo stop text i) nul)=true) ∧
      ∀ k,backTo stop text i<k→k≤ i→stop (text.getD k nul)=false := by
  induction i with
  | zero => exact ⟨.inl rfl,fun k hk hi => by omega⟩
  | succ i ih =>
    rw [backTo]
    by_cases hs : stop (text.getD (i+1) nul)=true
    · rw [if_pos hs]
      exact ⟨.inr hs,fun k hk hi => by omega⟩
    · rw [if_neg hs]
      refine ⟨ih.1,fun k hk hi => ?_⟩
      rcases Nat.lt_or_eq_of_le hi with hlt|rfl
      · exact ih.2 k hk (by omega)
      · simpa using hs

/-- The scan goes to the start if nothing stops it. -/
theorem backTo_eq_zero (h : ∀ k,0<k→k≤ i→stop (text.getD k nul)=false) : backTo stop text i=0 := by
  rcases (backTo_spec stop text i).1 with h0|hs
  · exact h0
  · by_contra hne
    have := h _ (Nat.pos_of_ne_zero hne) (backTo_le stop text i)
    rw [hs] at this
    cases this

/-- An index before the cursor is one of the characters before it. -/
theorem getD_before (z : CharZipper) {k : ℕ} (hk : k<z.before.length) :
    z.text.getD k nul=z.before.getD k nul := List.getD_append _ _ _ _ hk

/-- The character at the cursor is the first one behind it. -/
theorem getD_cursor (z : CharZipper) : z.text.getD z.before.length nul=z.after.headD nul := by
  have h := @getD_behind z.before z.after 0
  rw [Nat.add_zero] at h
  rw [Zipper.text,h]
  cases z.after <;> rfl

/-- An index behind the first part of a text is one of its second part. -/
theorem getD_of_split {xs ys text : List Char} (h : xs++ys=text) (i : ℕ) :
    text.getD (xs.length+i) nul=ys.getD i nul := h ▸ getD_behind i

/-- Characters of the last word, counted from its first. -/
theorem getD_lastWord (before : List Char) {k : ℕ} (hk : k<(lastWord before).length) :
    isspace (before.getD ((wordErased before).length+k) nul)=false := by
  rw [getD_of_split (split_eq before),List.getD_append _ _ _ _ hk,List.getD_eq_getElem _ _ hk]
  exact lastWord_spec (List.getElem_mem hk)

/-- The last character of a text that ends in blanks. -/
theorem getD_lastBlanks (h : lastBlanks before≠[]) :
    0<before.length ∧ isspace (before.getD (before.length-1) nul)=true := by
  have hsplit : before.rdropWhile isspace++lastBlanks before=before :=
    List.rdropWhile_append_rtakeWhile
  have hlen := congrArg List.length hsplit
  have hpos := List.length_pos_iff.mpr h
  rw [List.length_append] at hlen
  refine ⟨by omega,?_⟩
  have hidx : before.length-1=
      (before.rdropWhile isspace).length+((lastBlanks before).length-1) := by
    omega
  have hlt : (lastBlanks before).length-1<(lastBlanks before).length := by omega
  rw [hidx,getD_of_split hsplit,List.getD_eq_getElem _ _ hlt]
  exact lastBlanks_spec (List.getElem_mem hlt)

/-- Where `^W` deletes the word, it deletes everything before the cursor. -/
theorem wordErased_eq_nil (h : eraseTo z=(wordErased z.before).length) :
    wordErased z.before=[] := by
  by_contra hne
  have hword := List.length_pos_iff.mpr (lastWord_ne_nil hne)
  have hfirst := getD_lastWord z.before hword
  have hlen := congrArg List.length (split_eq z.before)
  rw [List.length_append,List.length_append] at hlen
  have hpos := List.length_pos_iff.mpr hne
  rcases (backTo_spec isspace z.text (backTo (fun c => !isspace c) z.text z.before.length)).1 with
    h0|hs
  · have : eraseTo z=0 := h0
    omega
  · have hs' : isspace (z.text.getD (eraseTo z) nul)=true := hs
    rw [h,getD_before z (by omega)] at hs'
    rw [Nat.add_zero,hs'] at hfirst
    cases hfirst

/-- The erasing does not stop behind a blank. -/
theorem not_behind_blank (h : eraseTo z=0) : z.before.length≤1 ∨ lastBlanks z.before=[] ∨
    isspace (z.after.headD nul)=true := by
  by_contra hno
  rw [not_or,not_or] at hno
  obtain ⟨hlong,hblanks,hcursor⟩ := hno
  obtain ⟨hpos,hblank⟩ := getD_lastBlanks hblanks
  obtain ⟨k,hk⟩ : ∃ k,z.before.length=k+1+1 := ⟨z.before.length-2,by omega⟩
  have hcur : isspace (z.text.getD (k+1+1) nul)=false := by
    rw [← hk,getD_cursor]
    simpa using hcursor
  have hlast : isspace (z.text.getD (k+1) nul)=true := by
    rw [getD_before z (by omega)]
    rwa [hk,Nat.add_sub_cancel] at hblank
  rw [eraseTo,hk,backTo,if_pos (by rw [hcur]; rfl),backTo,if_neg (by rw [hcur]; exact Bool.false_ne_true),backTo,
    if_pos hlast] at h
  omega

/-- Without blanks in front of it the last word begins the text. -/
theorem lastWord_first (h : wordErased z.before=[]) :
    lastWord z.before++lastBlanks z.before=z.before := by
  have hs := split_eq z.before
  rwa [h,List.nil_append] at hs

/-- When the word is erased, its characters come first. -/
theorem getD_word (h : wordErased z.before=[]) {k : ℕ} (hk : k<(lastWord z.before).length) :
    isspace (z.text.getD k nul)=false := by
  have hlen := congrArg List.length (lastWord_first h)
  rw [List.length_append] at hlen
  have hw := getD_lastWord z.before hk
  rw [h,List.length_nil,Nat.zero_add] at hw
  rwa [getD_before z (by omega)]

/-- The blanks of an erased word come behind its characters. -/
theorem getD_blank (h : wordErased z.before=[]) {k : ℕ} (hk : (lastWord z.before).length≤k)
    (hlt : k<z.before.length) : isspace (z.text.getD k nul)=true := by
  have hlen := congrArg List.length (lastWord_first h)
  rw [List.length_append] at hlen
  obtain ⟨d,rfl⟩ := Nat.exists_eq_add_of_le hk
  have hd : d<(lastBlanks z.before).length := by omega
  rw [getD_before z hlt,getD_of_split (lastWord_first h),List.getD_eq_getElem _ _ hd]
  exact lastBlanks_spec (List.getElem_mem hd)

/-- `^W` deletes everything before the cursor in these cases. -/
theorem eraseTo_eq_zero (h : Erasable z) : eraseTo z=0 := by
  obtain ⟨hnil,hcases⟩ := h
  have hlen := congrArg List.length (lastWord_first hnil)
  rw [List.length_append] at hlen
  have hle := backTo_le (fun c => !isspace c) z.text z.before.length
  obtain ⟨hstop,-⟩ := backTo_spec (fun c => !isspace c) z.text z.before.length
  refine backTo_eq_zero fun k h0 hk => ?_
  rcases hstop with hzero|hstop
  · omega
  have hnon : isspace (z.text.getD (backTo (fun c => !isspace c) z.text z.before.length) nul)=
      false := by
    simpa using hstop
  rcases Nat.lt_or_eq_of_le hle with hlt|heq
  · have hin : backTo (fun c => !isspace c) z.text z.before.length<(lastWord z.before).length := by
      by_contra hno
      rw [getD_blank hnil (by omega) hlt] at hnon
      cases hnon
    exact getD_word hnil (by omega)
  · rw [heq] at hnon hk
    rcases Nat.lt_or_eq_of_le hk with hlt|rfl
    · rcases hcases with hone|hnone|hcursor
      · omega
      · rw [hnone,List.length_nil] at hlen
        exact getD_word hnil (by omega)
      · rw [getD_cursor,hcursor] at hnon
        cases hnon
    · exact hnon

/-- `^W` deletes the blanks before the cursor and the word before them and nothing else, and puts
the cursor where the deleted part began, exactly for these texts and cursors. -/
theorem word_erase_iff {line : Line} (h : Shows line z) (junk : Buffer) :
    (∃ line',press junk 23 line=.ok line' ∧ Shows line' ⟨wordErased z.before,z.after⟩) ↔
      Erasable z := by
  obtain ⟨line₁,he,hs⟩ := eraseWord_spec h
  have hp : press junk 23 line=.ok line₁ := by
    have hpress : press junk 23 line=checked (eraseWord line) := rfl
    rw [hpress,he,checked_ok]
  have hle := eraseTo_le z
  constructor
  · rintro ⟨line',hok,hshows⟩
    rw [hp] at hok
    cases hok
    have hpos := hs.pos.symm.trans hshows.pos
    rw [Zipper.erase,List.length_take_of_le hle] at hpos
    have hto : eraseTo z=(wordErased z.before).length := by exact_mod_cast hpos
    have hnil := wordErased_eq_nil hto
    rw [hnil,List.length_nil] at hto
    exact ⟨hnil,not_behind_blank hto⟩
  · intro hz
    refine ⟨line₁,hp,?_⟩
    rw [eraseTo_eq_zero hz,Zipper.erase,List.take_zero] at hs
    rwa [hz.1]

/-- A line with a text and its cursor at some character. -/
def lineOf (text : List Char) (pos : ℕ) : Line := ⟨fun i => text.getD i nul,32,pos⟩

/-- The line with the text and the cursor of a zipper. -/
theorem lineOf_shows {z : CharZipper} (hclean : nul∉z.text) (hlen : z.text.length<32) :
    Shows (lineOf z.text z.before.length) z :=
  ⟨holds_iff.mpr ⟨hlen,fun _ _ => rfl,hclean⟩,rfl,show (32 : ℤ)<2^31 by decide⟩

/-- Deleting the only word of a line leaves an empty line. -/
theorem word_erase_one : ∃ line',press (fun _ => nul) 23 (lineOf ['u','d','p'] 3)=.ok line' ∧
    Shows line' ⟨[],[]⟩ :=
  (word_erase_iff (z:=⟨['u','d','p'],[]⟩) (lineOf_shows (by decide) (by decide)) _).mpr
    ⟨by decide,.inr (.inl (by decide))⟩

/-- With the cursor at the second of two words only the blank between them is deleted, and the
first word is left. -/
theorem word_erase_blank : ∃ line',press (fun _ => nul) 23 (lineOf ['a',' ','b'] 2)=.ok line' ∧
    Shows line' ⟨['a'],['b']⟩ ∧ ¬Shows line' ⟨wordErased ['a',' '],['b']⟩ := by
  have hshows : Shows (lineOf ['a',' ','b'] 2) ⟨['a',' '],['b']⟩ :=
    lineOf_shows (z:=⟨['a',' '],['b']⟩) (by decide) (by decide)
  obtain ⟨line',he,hs⟩ := eraseWord_spec hshows
  refine ⟨line',?_,hs,fun hno => ?_⟩
  · have hpress : press (fun _ => nul) 23 (lineOf ['a',' ','b'] 2)=
        checked (eraseWord (lineOf ['a',' ','b'] 2)) := rfl
    rw [hpress,he,checked_ok]
  · have hpos := hs.pos.symm.trans hno.pos
    exact absurd hpos (by decide)

end IftopColor.WordErase
