import IftopColor.ColorFile

/-!
# The lines of the colour file

A line of `~/.iftopcolors` is blank, a comment, or a word with a colour and a
boldness. It takes turns of the loop of its own: none for a blank line, one for
a comment or an element, and one for every word that is not read with them. So
an unknown word is three turns ahead of its line, and a long comment is read on
as words. The file means what it says if as many turns as there are newlines get
far enough down its lines.
-/

namespace IftopColor.ColorLines

open ConfigFile (upToNewline)
open TextBuffer (nul cut cut_of_not_mem)
open ColorFile

/-- White space within a line. -/
abbrev Blanks := {s : List Char // ∀ c∈s,isSpace c ∧ c≠ '\n'}

/-- A word without white space. -/
abbrev Token := {t : List Char // t≠[] ∧ ∀ c∈t,¬isSpace c}

/-- A line with a word, a colour and a boldness. -/
structure SettingLine where
  /-- Before the word. -/
  before : Blanks
  /-- The word. -/
  word : Token
  /-- Before the colour. -/
  gap : Blanks
  /-- The colour. -/
  color : Token
  /-- Before the boldness. -/
  gap' : Blanks
  /-- The boldness. -/
  bold : Token
  /-- After the boldness. -/
  after : Blanks
  /-- The line is no comment. -/
  word_head : word.val.head?≠some '#'
  /-- The colour is apart from the word. -/
  gap_ne : gap.val≠[]
  /-- The boldness is apart from the colour. -/
  gap'_ne : gap'.val≠[]

/-- A line of the file. -/
inductive Line where
  | blank (spaces : Blanks)
  | comment (text : List Char) (h : '\n'∉text)
  | setting (line : SettingLine)

/-- The text of a line. -/
def Line.text : Line→List Char
  | .blank spaces => spaces
  | .comment text _ => '#'::text
  | .setting line => line.before++(line.word++(line.gap++(line.color++(line.gap'++(line.bold++
      line.after)))))

/-- What a line says. -/
def Line.entry : Line→Option Entry
  | .blank _ => none
  | .comment _ _ => none
  | .setting line => (ofName line.word).map fun e => ⟨e,line.color,line.bold⟩

/-- The content of a file with or without a final newline. -/
def fileText : List Line→Bool→List Char
  | [],_ => []
  | [line],final => line.text++if final then ['\n'] else []
  | line::lines,final => line.text++ '\n'::fileText lines final

/-- What a turn of the loop finds in a line. -/
inductive Turn where
  | comment
  | entry (e : Entry)
  | word (text : List Char)
  deriving DecidableEq

/-- The entry that a turn sets, if there is one. -/
def Turn.entry? : Turn→Option Entry
  | .comment => none
  | .entry e => some e
  | .word _ => none

/-- A word on its own that names no element and starts no comment. -/
def Turn.Idle : Turn→Prop
  | .comment => True
  | .entry _ => True
  | .word text => text.head?≠some '#' ∧ ofName text=none

/-- The pieces of a word that are read one at a time. -/
def pieces (word : List Char) : List (List Char) :=
  (List.range ((word.length+253)/254)).map fun k => cut ((word.drop (254*k)).take 254)

/-- The words of a text. -/
def words (text : List Char) : List (List Char) := (text.splitOnP isSpace).filter fun w => w≠[]

/-- What a comment is too long for: its first word and 254 more characters are skipped. -/
def commentRest (text : List Char) : List Char :=
  let line := '#'::text
  let word := (line.takeWhile fun c => !isSpace c).take 254
  (line.drop word.length).drop 254

/-- The texts that are read as colour and boldness of an element, and what is left of the line. Of
a longer word only 99 and 49 characters are read; the rest of a colour is taken for the
boldness. -/
def SettingLine.scanned (line : SettingLine) : List Char×List Char×List (List Char) :=
  let color := line.color.val
  let bold := line.bold.val
  if color.length≤99 then (cut color,cut (bold.take 49),[bold.drop 49])
  else (cut (color.take 99),cut ((color.drop 99).take 49),[color.drop 148,bold])

/-- The turns that a line takes: none for white space, one for a comment or an element, and one
for every word that is not read with them. -/
def Line.turns : Line→List Turn
  | .blank _ => []
  | .comment text _ => .comment::((words (commentRest text)).flatMap pieces).map .word
  | .setting line =>
    match ofName line.word with
    | none => ([line.word.val,line.color.val,line.bold.val].flatMap pieces).map .word
    | some e =>
      let (color,bold,rest) := line.scanned
      .entry ⟨e,color,bold⟩::(rest.flatMap pieces).map .word

/-- The turns that the loop makes for a file: as many as there are newlines, counted in an
`int`. -/
def turnCount (lines : List Line) (final : Bool) : ℕ :=
  let newlines := if final then lines.length else lines.length-1
  ((newlines : ℤ).bmod (2^32)).toNat

/-- White space, or the end of the file, is next. -/
def Apart (rest : List Char) : Prop := ∀ c∈rest.head?,isSpace c

/-- A word may be empty here. -/
def NoSpace (word : List Char) : Prop := ∀ c∈word,¬isSpace c

/-- Blanks are white space. -/
theorem isSpace_of_mem (s : Blanks) : ∀ c∈s.val,isSpace c := fun c hc => (s.property c hc).1

/-- What is left of a word has no white space either. -/
theorem NoSpace.drop {word : List Char} (h : NoSpace word) (n : ℕ) : NoSpace (word.drop n) :=
  fun c hc => h c (List.mem_of_mem_drop hc)

/-- A text with the turns that its parts take. -/
inductive Spells : List Char→List Turn→Prop
  | nil : Spells [] []
  | space {c : Char} {text : List Char} {turns : List Turn} (hc : isSpace c)
      (h : Spells text turns) : Spells (c::text) turns
  | word {word rest : List Char} {turns : List Turn} (hne : word≠[]) (hw : NoSpace word)
      (hr : Apart rest) (h : Spells rest turns) :
      Spells (word++rest) ((pieces word).map .word++turns)
  | comment {text rest : List Char} {turns : List Turn} (ht : '\n'∉text)
      (hr : rest=[] ∨ ∃ rest',rest= '\n'::rest') (h : Spells (commentRest text++rest) turns) :
      Spells ('#'::text++rest) (.comment::turns)
  | entry {line : SettingLine} {e : Element} {rest : List Char} {turns : List Turn}
      (he : ofName line.word=some e) (hr : Apart rest) (h : Spells rest turns) :
      Spells (line.word++(line.gap++(line.color++(line.gap'++(line.bold++rest)))))
        (.entry ⟨e,line.scanned.1,line.scanned.2.1⟩::
          ((line.scanned.2.2.flatMap pieces).map .word++turns))

/-- What is left of a text behind a word of limited width. -/
theorem drop_length_take (n : ℕ) (word rest : List Char) :
    (word++rest).drop (word.take n).length=word.drop n++rest := by
  rw [List.length_take]
  rcases Nat.le_total n word.length with h|h
  · rw [Nat.min_eq_left h,List.drop_append_of_le_length h]
  · rw [Nat.min_eq_right h,List.drop_left,List.drop_of_length_le h,List.nil_append]

/-- A text that does not begin with white space begins with a word that stands apart. -/
theorem exists_word {c : Char} (hc : ¬isSpace c) (cs : List Char) :
    ∃ word rest,c::cs=word++rest ∧ word≠[] ∧ NoSpace word ∧ Apart rest ∧
      (c::cs).takeWhile (fun c => !isSpace c)=word := by
  refine ⟨_,_,(List.takeWhile_append_dropWhile (p:=fun c => !isSpace c)).symm,?_,?_,?_,rfl⟩
  · simp [hc]
  · intro d hd
    simpa using List.mem_takeWhile_imp hd
  · intro d hd
    have hnot := List.head?_dropWhile_not (fun c => !isSpace c) (c::cs)
    rw [Option.mem_def.mp hd] at hnot
    simpa using hnot

/-- A text that stands apart from the word before it still does with more text behind it. -/
theorem Apart.append {tail rest : List Char} (ht : Apart tail) (hr : Apart rest) :
    Apart (tail++rest) := by
  cases tail with
  | nil => exact hr
  | cons c cs => exact ht

/-- Behind a line there is a newline or nothing. -/
theorem apart_of_line {rest : List Char} (hr : rest=[] ∨ ∃ rest',rest= '\n'::rest') :
    Apart rest := by
  rcases hr with rfl|⟨rest',rfl⟩
  · simp [Apart]
  · simp [Apart,isSpace]

/-- White space within a line keeps words apart. -/
theorem apart_blanks {ws : List Char} (hws : ∀ c∈ws,isSpace c ∧ c≠ '\n') (hne : ws≠[])
    (rest : List Char) : Apart (ws++rest) := by
  cases ws with
  | nil => exact absurd rfl hne
  | cons c cs =>
    intro d hd
    obtain rfl : c=d := by simpa using hd
    exact (hws c List.mem_cons_self).1

/-- Scanning a word skips the white space in front of it. -/
theorem scanWord_space {c : Char} (hc : isSpace c) (n : ℕ) (input : List Char) :
    scanWord n (c::input)=scanWord n input := by
  rw [scanWord,List.dropWhile_cons_of_pos hc]
  rfl

/-- A word is read up to the width of its field. -/
theorem scanWord_word {n : ℕ} {ws word rest : List Char} (hws : ∀ c∈ws,isSpace c) (hne : word≠[])
    (hw : NoSpace word) (hr : Apart rest) :
    scanWord n (ws++(word++rest))=some (cut (word.take n),word.drop n++rest) := by
  have hdrop : (ws++(word++rest)).dropWhile isSpace=word++rest := by
    rw [List.dropWhile_append_of_pos hws]
    cases word with
    | nil => exact absurd rfl hne
    | cons c cs => exact List.dropWhile_cons_of_neg (hw c List.mem_cons_self)
  have htake : ((word++rest).takeWhile fun c => !isSpace c)=word := by
    rw [List.takeWhile_append_of_pos (by simpa [NoSpace] using hw)]
    cases rest with
    | nil => simp
    | cons d ds => simp [hr d rfl]
  rw [scanWord,hdrop]
  dsimp only
  rw [htake,if_neg (by simp [hne]),drop_length_take]

/-- A word is read in its first 254 characters and then in the pieces of the rest. -/
theorem pieces_of_ne {word : List Char} (h : word≠[]) :
    pieces word=cut (word.take 254)::pieces (word.drop 254) := by
  have hpos := List.length_pos_of_ne_nil h
  have hcount : (word.length+253)/254=((word.drop 254).length+253)/254+1 := by
    rw [List.length_drop]
    omega
  unfold pieces
  rw [hcount,List.range_succ_eq_map,List.map_cons,List.map_map]
  congr 1
  apply List.map_congr_left
  intro k _
  have hdrop : 254+254*k=254*(k+1) := by omega
  rw [Function.comp_apply,List.drop_drop,hdrop]

/-- White space in front of a text leaves its turns as they are. -/
theorem Spells.blanks {ws rest : List Char} {turns : List Turn} (hws : ∀ c∈ws,isSpace c)
    (h : Spells rest turns) : Spells (ws++rest) turns := by
  induction ws with
  | nil => exact h
  | cons c cs ih =>
    exact .space (hws c List.mem_cons_self) (ih fun c hc => hws c (List.mem_cons_of_mem _ hc))

/-- White space in front is no part of anything. -/
theorem Spells.of_space {c : Char} {rest : List Char} {turns : List Turn}
    (h : Spells (c::rest) turns) (hc : isSpace c) : Spells rest turns := by
  have hhead {word : List Char} (hne : word≠[]) (hw : NoSpace word) (more : List Char)
      (heq : c::rest=word++more) : False := by
    cases word with
    | nil => exact hne rfl
    | cons d ds =>
      obtain rfl : c=d := (List.cons.inj heq).1
      exact hw c List.mem_cons_self hc
  generalize ht : c::rest=text at h
  cases h with
  | nil => cases ht
  | space hd h =>
    obtain ⟨-,rfl⟩ := List.cons.inj ht
    exact h
  | word hne hw hr h => exact (hhead hne hw _ ht).elim
  | comment =>
    obtain rfl : c= '#' := (List.cons.inj ht).1
    exact absurd hc (by decide)
  | @entry line => exact (hhead line.word.property.1 line.word.property.2 _ ht).elim

/-- A word in front, or what is left of one. -/
theorem Spells.part {part rest : List Char} {turns : List Turn} (hp : NoSpace part)
    (hr : Apart rest) (h : Spells rest turns) :
    Spells (part++rest) ((pieces part).map .word++turns) := by
  by_cases hne : part=[]
  · subst hne
    exact h
  · exact .word hne hp hr h

/-- White space does not count as a word. -/
theorem words_space {c : Char} (hc : isSpace c) (text : List Char) :
    words (c::text)=words text := by
  have hsplit : ([]++c::text).splitOnP isSpace=[]::text.splitOnP isSpace :=
    List.splitOnP_append_cons_of_forall_mem (by simp) c hc text
  rw [List.nil_append] at hsplit
  rw [words,hsplit,List.filter_cons_of_neg (by simp),words]

/-- The words of a text are its first word and those of the rest. -/
theorem words_word {word rest : List Char} (hne : word≠[]) (hw : NoSpace word) (hr : Apart rest) :
    words (word++rest)=word::words rest := by
  have hno : ∀ c∈word,isSpace c=false := by simpa [NoSpace] using hw
  cases rest with
  | nil =>
    rw [List.append_nil,words,List.splitOnP_eq_singleton hno,
      List.filter_cons_of_pos (by simpa using hne)]
    rfl
  | cons c cs =>
    have hc : isSpace c := hr c rfl
    rw [words_space hc,words,List.splitOnP_append_cons_of_forall_mem hno c hc,
      List.filter_cons_of_pos (by simpa using hne),words]

/-- A text of which every word is read on its own. -/
theorem Spells.text {rest : List Char} {turns : List Turn} (hr : Apart rest)
    (h : Spells rest turns) (text : List Char) :
    Spells (text++rest) (((words text).flatMap pieces).map .word++turns) := by
  induction hlen : text.length using Nat.strong_induction_on generalizing text with
  | _ n ih =>
    cases text with
    | nil => exact h
    | cons c cs =>
      by_cases hc : isSpace c
      · rw [words_space hc]
        exact .space hc (ih cs.length (by rw [← hlen,List.length_cons]; omega) cs rfl)
      · obtain ⟨word,tail,hsplit,hne,hw,ht,-⟩ := exists_word hc cs
        have hshort : tail.length<n := by
          have hsum := congrArg List.length hsplit
          have hpos := List.length_pos_of_ne_nil hne
          rw [List.length_append] at hsum
          omega
        rw [hsplit,words_word hne hw ht,List.flatMap_cons,List.map_append,List.append_assoc,
          List.append_assoc]
        exact .word hne hw (ht.append hr) (ih tail.length hshort tail rfl)

/-- A line in front of the rest of the file takes its own turns first. -/
theorem Line.spells {rest : List Char} {turns : List Turn}
    (hr : rest=[] ∨ ∃ rest',rest= '\n'::rest') (h : Spells rest turns) (line : Line) :
    Spells (line.text++rest) (line.turns++turns) := by
  have hapart := apart_of_line hr
  have hend (s : Blanks) : Apart (s.val++rest) := by
    by_cases hs : s.val=[]
    · rw [hs]
      exact hapart
    · exact apart_blanks s.property hs rest
  cases line with
  | blank spaces => exact h.blanks (isSpace_of_mem spaces)
  | comment text ht =>
    exact .comment ht hr (h.text hapart _)
  | setting line =>
    have hbefore := isSpace_of_mem line.before
    have hafter := h.blanks (isSpace_of_mem line.after)
    have hbold := hend line.after
    have hcolor := apart_blanks line.gap'.property line.gap'_ne
      (line.bold.val++(line.after.val++rest))
    have hword := apart_blanks line.gap.property line.gap_ne
      (line.color.val++(line.gap'.val++(line.bold.val++(line.after.val++rest))))
    have htext : (Line.setting line).text++rest=line.before.val++(line.word.val++(line.gap.val++
        (line.color.val++(line.gap'.val++(line.bold.val++(line.after.val++rest)))))) := by
      simp [Line.text]
    rw [htext]
    refine .blanks hbefore ?_
    cases hn : ofName line.word with
    | some e =>
      have hturns : (Line.setting line).turns++turns=.entry ⟨e,line.scanned.1,line.scanned.2.1⟩::
          ((line.scanned.2.2.flatMap pieces).map .word++turns) := by
        simp [Line.turns,hn]
      rw [hturns]
      exact .entry hn hbold hafter
    | none =>
      have hturns : (Line.setting line).turns++turns=(pieces line.word).map .word++
          ((pieces line.color).map .word++((pieces line.bold).map .word++turns)) := by
        simp [Line.turns,hn]
      rw [hturns]
      refine .word line.word.property.1 line.word.property.2 hword
        (.blanks (isSpace_of_mem line.gap) ?_)
      refine .word line.color.property.1 line.color.property.2 hcolor
        (.blanks (isSpace_of_mem line.gap') ?_)
      exact .word line.bold.property.1 line.bold.property.2 hbold hafter

/-- A file is laid out as its lines are. -/
theorem spells_fileText (lines : List Line) (final : Bool) :
    Spells (fileText lines final) (lines.flatMap Line.turns) := by
  have hline : isSpace '\n' := by decide
  induction lines with
  | nil => exact .nil
  | cons line lines ih =>
    rw [List.flatMap_cons]
    cases lines with
    | nil =>
      cases final with
      | false => exact line.spells (.inl rfl) .nil
      | true => exact line.spells (.inr ⟨[],rfl⟩) (.space hline .nil)
    | cons line' lines => exact line.spells (.inr ⟨_,rfl⟩) (.space hline ih)

/-- White space does not count for a turn. -/
theorem nextEntry_space {c : Char} (hc : isSpace c) (input : List Char) :
    nextEntry (c::input)=nextEntry input := by
  rw [nextEntry,scanWord_space hc,nextEntry]

/-- The rest of a line that `fgets` takes. -/
theorem upToNewline_rest {text rest : List Char} (ht : '\n'∉text)
    (hr : rest=[] ∨ ∃ rest',rest= '\n'::rest') (n : ℕ) :
    (upToNewline n (text++rest)).2=if text.length<n then rest.tail else text.drop n++rest := by
  induction text generalizing n with
  | nil =>
    rcases hr with rfl|⟨rest',rfl⟩ <;> cases n <;> simp [upToNewline]
  | cons c cs ih =>
    rw [List.mem_cons,not_or] at ht
    cases n with
    | zero => simp [upToNewline]
    | succ n =>
      rw [List.cons_append,upToNewline,if_neg (Ne.symm ht.1)]
      dsimp only
      rw [ih ht.2 n]
      simp

/-- A comment takes one turn, whatever it says. -/
theorem nextEntry_comment {text rest : List Char} {turns : List Turn} (ht : '\n'∉text)
    (hr : rest=[] ∨ ∃ rest',rest= '\n'::rest') (h : Spells (commentRest text++rest) turns) :
    ∃ rest',nextEntry ('#'::text++rest)=some (none,rest') ∧ Spells rest' turns := by
  have hno : ¬isSpace '#' := by decide
  obtain ⟨word,tail,hsplit,hne,hw,ht',hword⟩ := exists_word hno text
  have htail := ht'.append (apart_of_line hr)
  have hhead : (cut (word.take 254)).head?=some '#' := by
    cases word with
    | nil => exact absurd rfl hne
    | cons c cs =>
      obtain rfl : '#'=c := (List.cons.inj hsplit).1
      rw [List.take_succ_cons,cut,List.takeWhile_cons_of_pos (by decide)]
      rfl
  have hscan := @scanWord_word 254 [] word (tail++rest) (by simp) hne hw htail
  rw [List.nil_append,← List.append_assoc,← List.append_assoc] at hscan
  have hline : word.drop 254++tail=('#'::text).drop (word.take 254).length := by
    rw [hsplit,drop_length_take]
  have hclean : '\n'∉word.drop 254++tail := by
    rw [hline]
    intro hmem
    have hmem := List.mem_of_mem_drop hmem
    rcases List.mem_cons.mp hmem with hc|hc
    · exact absurd hc (by decide)
    · exact ht hc
  have hskip : commentRest text=(word.drop 254++tail).drop 254 := by
    rw [commentRest,hline,hword]
  refine ⟨(upToNewline 254 (word.drop 254++tail++rest)).2,?_,?_⟩
  · rw [nextEntry,hsplit,hscan]
    dsimp only
    rw [if_pos hhead]
  · rw [upToNewline_rest hclean hr]
    split
    · -- the newline is taken as well
      rename_i hshort
      rw [hskip,List.drop_of_length_le hshort.le,List.nil_append] at h
      rcases hr with rfl|⟨rest',rfl⟩
      · exact h
      · exact h.of_space (by decide)
    · rw [← hskip]
      exact h

/-- A turn that reads a piece of an idle word leaves the rest of the word to the turns behind it. -/
theorem nextEntry_piece {word rest : List Char} {turns : List Turn} (hne : word≠[])
    (hw : NoSpace word) (hr : Apart rest) (hidle : (Turn.word (cut (word.take 254))).Idle)
    (h : Spells rest turns) :
    ∃ rest',nextEntry (word++rest)=some (none,rest') ∧
      Spells rest' ((pieces (word.drop 254)).map .word++turns) := by
  have hscan := @scanWord_word 254 [] word rest (by simp) hne hw hr
  rw [List.nil_append] at hscan
  refine ⟨word.drop 254++rest,?_,.part (hw.drop 254) hr h⟩
  rw [nextEntry,hscan]
  dsimp only
  rw [if_neg hidle.1,hidle.2]

/-- The name of an element fits in the buffer and has no NUL. -/
theorem name_fits (e : Element) : e.name.length≤254 ∧ nul∉e.name := by
  cases e <;> decide

/-- An element takes one turn with its colour and its boldness. -/
theorem nextEntry_element {line : SettingLine} {e : Element} {rest : List Char}
    {turns : List Turn} (he : ofName line.word=some e) (hr : Apart rest) (h : Spells rest turns) :
    ∃ rest',nextEntry (line.word++(line.gap++(line.color++(line.gap'++(line.bold++rest)))))=
        some (some ⟨e,line.scanned.1,line.scanned.2.1⟩,rest') ∧
      Spells rest' ((line.scanned.2.2.flatMap pieces).map .word++turns) := by
  have hname : line.word.val=e.name := name_of_ofName he
  obtain ⟨hlen,hnul⟩ := name_fits e
  have hgap' := apart_blanks line.gap'.property line.gap'_ne (line.bold.val++rest)
  have hgap := apart_blanks line.gap.property line.gap_ne
    (line.color.val++(line.gap'.val++(line.bold.val++rest)))
  have hword := @scanWord_word 254 [] _ _ (by simp) line.word.property.1 line.word.property.2 hgap
  have hcolor := @scanWord_word 99 _ _ _ (isSpace_of_mem line.gap) line.color.property.1
    line.color.property.2 hgap'
  have hbold := @scanWord_word 49 _ _ _ (isSpace_of_mem line.gap') line.bold.property.1
    line.bold.property.2 hr
  rw [List.nil_append,hname,List.take_of_length_le hlen,List.drop_of_length_le hlen,
    cut_of_not_mem hnul,List.nil_append] at hword
  rw [hname,nextEntry,hword]
  dsimp only
  rw [if_neg (name_head e),ofName_name]
  dsimp only
  rw [hcolor]
  dsimp only
  unfold SettingLine.scanned
  dsimp only
  by_cases hc : line.color.val.length≤99
  · rw [List.take_of_length_le hc,List.drop_of_length_le hc,List.nil_append,hbold,if_pos hc]
    refine ⟨_,rfl,?_⟩
    rw [List.flatMap_singleton]
    exact .part (NoSpace.drop line.bold.property.2 49) hr h
  · -- the boldness is what is left of the colour
    have hne : line.color.val.drop 99≠[] := by
      rw [Ne,List.drop_eq_nil_iff]
      exact hc
    have hleft := @scanWord_word 49 [] _ _ (by simp) hne (NoSpace.drop line.color.property.2 99) hgap'
    rw [List.nil_append,List.drop_drop] at hleft
    rw [hleft,if_neg hc]
    refine ⟨_,rfl,?_⟩
    rw [List.flatMap_cons,List.flatMap_singleton,List.map_append,List.append_assoc]
    refine .part (NoSpace.drop line.color.property.2 148) hgap' (.blanks (isSpace_of_mem line.gap') ?_)
    exact .word line.bold.property.1 line.bold.property.2 hr h

/-- A turn finds what the layout says, unless it reads a word that is not idle. -/
theorem Spells.next {text : List Char} {turn : Turn} {turns : List Turn}
    (h : Spells text (turn::turns)) (hidle : turn.Idle) :
    ∃ rest,nextEntry text=some (turn.entry?,rest) ∧ Spells rest turns := by
  generalize hall : turn::turns=all at h
  induction h generalizing turn turns with
  | nil => cases hall
  | space hc _ ih =>
    obtain ⟨rest,hn,hs⟩ := ih hidle hall
    exact ⟨rest,(nextEntry_space hc _).trans hn,hs⟩
  | word hne hw hr h =>
    rw [pieces_of_ne hne,List.map_cons,List.cons_append] at hall
    obtain ⟨rfl,rfl⟩ := List.cons.inj hall
    exact nextEntry_piece hne hw hr hidle h
  | comment ht hr h =>
    obtain ⟨rfl,rfl⟩ := List.cons.inj hall
    exact nextEntry_comment ht hr h
  | entry he hr h =>
    obtain ⟨rfl,rfl⟩ := List.cons.inj hall
    exact nextEntry_element he hr h

/-- Where there are no turns left, there is nothing to read. -/
theorem Spells.end {text : List Char} (h : Spells text []) : nextEntry text=none := by
  generalize hall : []=all at h
  induction h with
  | nil => rfl
  | space hc _ ih => exact (nextEntry_space hc _).trans (ih hall)
  | word hne =>
    rw [pieces_of_ne hne] at hall
    cases hall
  | comment => cases hall
  | entry => cases hall

/-- The turns of the loop, as long as they find idle words only. -/
theorem Spells.take {text : List Char} {turns : List Turn} (h : Spells text turns) (n : ℕ)
    (hidle : ∀ turn∈turns.take n,turn.Idle) :
    takeEntries n text=
      if n≤turns.length then some ((turns.take n).filterMap Turn.entry?) else none := by
  induction n generalizing text turns with
  | zero => rfl
  | succ n ih =>
    cases turns with
    | nil =>
      rw [takeEntries,h.end]
      rfl
    | cons turn turns =>
      obtain ⟨rest,hn,hs⟩ := h.next (hidle turn List.mem_cons_self)
      have hrest := ih hs fun t ht => hidle t (List.mem_cons_of_mem turn ht)
      rw [takeEntries,hn]
      dsimp only
      rw [hrest,List.length_cons,List.take_succ_cons,List.filterMap_cons]
      by_cases hlen : n≤turns.length
      · rw [if_pos hlen,if_pos (by omega)]
        cases turn.entry? <;> rfl
      · rw [if_neg hlen,if_neg (by omega)]
        rfl

/-- The text of a line has no newline. -/
theorem newline_not_mem_text (line : Line) : '\n'∉line.text := by
  have hb : ∀ s : Blanks,'\n'∉s.val := fun s h => (s.property _ h).2 rfl
  have ht : ∀ t : Token,'\n'∉t.val := fun t h => t.property.2 _ h rfl
  cases line with
  | blank spaces => exact hb spaces
  | comment text h => simpa [Line.text] using h
  | setting line => simp [Line.text,hb,ht]

/-- A file has as many newlines as lines, or one less. -/
theorem count_fileText (lines : List Line) (final : Bool) :
    (fileText lines final).count '\n'=if final then lines.length else lines.length-1 := by
  have hline (line : Line) : line.text.count '\n'=0 :=
    List.count_eq_zero_of_not_mem (newline_not_mem_text line)
  induction lines with
  | nil => cases final <;> rfl
  | cons line lines ih =>
    cases lines with
    | nil => cases final <;> simp [fileText,hline]
    | cons line' lines =>
      have hcons : fileText (line::line'::lines) final=
          line.text++ '\n'::fileText (line'::lines) final := rfl
      rw [hcons,List.count_append,List.count_cons_self,ih,hline]
      cases final <;> simp

/-- The loop makes as many turns as were counted for the lines. -/
theorem lineCount_fileText (lines : List Line) (final : Bool) :
    (lineCount (fileText lines final)).toNat=turnCount lines final := by
  unfold lineCount turnCount
  rw [count_fileText]

/-- A word that is checked. -/
def token (t : List Char) (h : (!t.isEmpty && t.all fun c => !isSpace c)=true) : Token :=
  ⟨t,by
    rw [Bool.and_eq_true,List.all_eq_true] at h
    exact ⟨by simpa using h.1,by simpa using h.2⟩⟩

/-- A line of three words with a blank between them. -/
def wordsLine (word color bold : Token) (h : word.val.head?≠some '#') : Line :=
  .setting ⟨⟨[],by simp⟩,word,⟨[' '],by simp [isSpace]⟩,color,⟨[' '],by simp [isSpace]⟩,bold,
    ⟨[],by simp⟩,h,by simp,by simp⟩

/-- Suppose no word that is read on its own names an element or starts a comment. Then the colours
after the file are those that its lines say, whatever the arrays hold that are not initialised,
exactly when the lines take as many turns as there are newlines, and what they set in that many
turns is, for every element, the last valid colour and the last boldness of all lines. -/
theorem color_file_iff (lines : List Line) (final : Bool)
    (hidle : ∀ turn∈(lines.flatMap Line.turns).take (turnCount lines final),turn.Idle) :
    (∀ junk settings,getColors junk (some (fileText lines final)) settings=
        setBy (lines.filterMap Line.entry) settings) ↔
      turnCount lines final≤(lines.flatMap Line.turns).length ∧
        SameLast (((lines.flatMap Line.turns).take (turnCount lines final)).filterMap Turn.entry?)
          (lines.filterMap Line.entry) := by
  rw [getColors_iff_taken,lineCount_fileText,(spells_fileText lines final).take _ hidle]
  by_cases hlen : turnCount lines final≤(lines.flatMap Line.turns).length
  · rw [if_pos hlen]
    constructor
    · rintro ⟨entries,he,hsame⟩
      obtain rfl := Option.some.inj he
      exact ⟨hlen,hsame⟩
    · rintro ⟨-,hsame⟩
      exact ⟨_,rfl,hsame⟩
  · rw [if_neg hlen]
    constructor
    · rintro ⟨_,he,-⟩
      cases he
    · rintro ⟨hle,-⟩
      exact absurd hle hlen

/-- A comment, an element and an unknown word. -/
def unknownLast : List Line :=
  [.comment " colours".toList (by decide),
    wordsLine (token Element.host1Color.name (by decide)) (token "red".toList rfl)
      (token "bold".toList rfl) (by decide),
    wordsLine (token ['F'] rfl) (token "green".toList rfl) (token "bold".toList rfl) (by decide)]

/-- The unknown word is the last one that is read, and the element is set as its line says. -/
theorem color_file_iff_unknownLast :
    (unknownLast.flatMap Line.turns).take (turnCount unknownLast true)=
        [.comment,.entry ⟨.host1Color,"red".toList,"bold".toList⟩,.word ['F']] ∧
      ∀ junk settings,getColors junk (some (fileText unknownLast true)) settings=
        setBy (unknownLast.filterMap Line.entry) settings := by
  have hturns : (unknownLast.flatMap Line.turns).take (turnCount unknownLast true)=
      [.comment,.entry ⟨.host1Color,"red".toList,"bold".toList⟩,.word ['F']] := by
    decide
  have hidle : ∀ turn∈(unknownLast.flatMap Line.turns).take (turnCount unknownLast true),
      turn.Idle := by
    rw [hturns]
    simp only [List.forall_mem_cons]
    exact ⟨trivial,trivial,⟨by decide,by decide⟩,by simp⟩
  refine ⟨hturns,(color_file_iff unknownLast true hidle).mpr ⟨by decide,?_⟩⟩
  rw [hturns]
  exact fun e => ⟨rfl,rfl⟩

/-- A file whose first line has an unknown word. -/
def unknownFirst : List Line :=
  [wordsLine (token ['F'] rfl) (token "red".toList rfl) (token "bold".toList rfl) (by decide),
    wordsLine (token Element.host1Color.name (by decide)) (token "red".toList rfl)
      (token "nonbold".toList rfl) (by decide)]

/-- The two lines are used up by two words of the first one. -/
theorem unknown_word_shifts :
    getColors (fun _ => ([],[])) (some (fileText unknownFirst true)) (fun _ => ⟨9,1⟩) .host1Color=
        ⟨9,1⟩ ∧
      setBy (unknownFirst.filterMap Line.entry) (fun _ => ⟨9,1⟩) .host1Color=⟨5,0⟩ := by
  decide

end IftopColor.ColorLines
