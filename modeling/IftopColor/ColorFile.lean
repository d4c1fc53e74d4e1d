import IftopColor.ConfigFile
import IftopColor.TextBuffer
import Mathlib.Logic.Function.Basic
import Mathlib.Data.List.Nodup
import Mathlib.Tactic.Linarith

/-!
# The colour file

`getColors` counts the newlines of `~/.iftopcolors` and then makes as many turns,
each of which takes an entry word by word. An unknown word is an entry of its
own. What the file sets are the entries that are taken, as long as they are
complete: the arrays that an entry is read into are not initialised, and at the
end of the file they keep what they hold.
-/

namespace IftopColor.ColorFile

open ConfigFile (upToNewline)
open TextBuffer (nul cut cut_of_not_mem)

/-- The elements with a colour. -/
inductive Element where
  | receiveBarColor
  | sentBarColor
  | bothBarColor
  | scaleBarColor
  | scaleMarkersColor
  | dlUlIndicatorColor
  | host1Color
  | host2Color
  | twoSecondTransferColumnColor
  | tenSecondTransferColumnColor
  | fourtySecondTransferColumnColor
  | bottomBarColor
  | cumLabelColor
  | peakLabelColor
  | ratesLabelColor
  | totalLabelColor
  | cumTransferColumnColor
  | peakTransferColumnColor
  | procNameColor
  deriving DecidableEq

/-- The name of an element in the file. -/
def Element.name : Element→List Char
  | .receiveBarColor => "RECEIVE_BAR_COLOR".toList
  | .sentBarColor => "SENT_BAR_COLOR".toList
  | .bothBarColor => "BOTH_BAR_COLOR".toList
  | .scaleBarColor => "SCALE_BAR_COLOR".toList
  | .scaleMarkersColor => "SCALE_MARKERS_COLOR".toList
  | .dlUlIndicatorColor => "DL_UL_INDICATOR_COLOR".toList
  | .host1Color => "HOST1_COLOR".toList
  | .host2Color => "HOST2_COLOR".toList
  | .twoSecondTransferColumnColor => "TWO_SECOND_TRANSFER_COLUMN_COLOR".toList
  | .tenSecondTransferColumnColor => "TEN_SECOND_TRANSFER_COLUMN_COLOR".toList
  | .fourtySecondTransferColumnColor => "FOURTY_SECOND_TRANSFER_COLUMN_COLOR".toList
  | .bottomBarColor => "BOTTOM_BAR_COLOR".toList
  | .cumLabelColor => "CUM_LABEL_COLOR".toList
  | .peakLabelColor => "PEAK_LABEL_COLOR".toList
  | .ratesLabelColor => "RATES_LABEL_COLOR".toList
  | .totalLabelColor => "TOTAL_LABEL_COLOR".toList
  | .cumTransferColumnColor => "CUM_TRANSFER_COLUMN_COLOR".toList
  | .peakTransferColumnColor => "PEAK_TRANSFER_COLUMN_COLOR".toList
  | .procNameColor => "PROC_NAME_COLOR".toList

/-- What the array for the colour of an element holds before the file is read. -/
def Element.defaultColor : Element→List Char
  | .receiveBarColor => "green".toList
  | .sentBarColor => "blue".toList
  | .bothBarColor => "magenta".toList
  | .scaleBarColor => "magenta".toList
  | .scaleMarkersColor => "blue".toList
  | .dlUlIndicatorColor => "blue".toList
  | .host1Color => "cyan".toList
  | .host2Color => "magenta".toList
  | .twoSecondTransferColumnColor => "blue".toList
  | .tenSecondTransferColumnColor => "yellow".toList
  | .fourtySecondTransferColumnColor => "yellow".toList
  | .bottomBarColor => "blue".toList
  | .cumLabelColor => "yellow".toList
  | .peakLabelColor => "yellow".toList
  | .ratesLabelColor => "yellow".toList
  | .totalLabelColor => "blue".toList
  | .cumTransferColumnColor => "yellow".toList
  | .peakTransferColumnColor => "yellow".toList
  | .procNameColor => "green".toList

/-- The elements in the order of their cases. -/
def elements : List Element :=
  [.receiveBarColor,.sentBarColor,.bothBarColor,.scaleBarColor,.scaleMarkersColor,
    .dlUlIndicatorColor,.host1Color,.host2Color,.twoSecondTransferColumnColor,
    .tenSecondTransferColumnColor,.fourtySecondTransferColumnColor,.bottomBarColor,
    .cumLabelColor,.peakLabelColor,.ratesLabelColor,.totalLabelColor,.cumTransferColumnColor,
    .peakTransferColumnColor,.procNameColor]

/-- The two numbers of an element. -/
structure Setting where
  /-- The colour pair. -/
  color : ℤ
  /-- Whether it is bold. -/
  bold : ℤ
  deriving DecidableEq

/-- `convertColorToInt`. -/
def convertColorToInt (color : List Char) : ℤ :=
  let color := color.map Char.toLower
  if color="green".toList then 4
  else if color="red".toList then 5
  else if color="blue".toList then 6
  else if color="yellow".toList then 7
  else if color="magenta".toList then 8
  else if color="cyan".toList then 9
  else if color="black".toList then 10
  else if color="white".toList then 11
  else -1

/-- `convertBoldToInt`. -/
def convertBoldToInt (bold : List Char) : ℤ :=
  let bold := bold.map Char.toLower
  if bold="bold".toList then 1
  else if bold="nonbold".toList then 0
  else 0

/-- `isspace`. -/
def isSpace (c : Char) : Bool :=
  c= ' ' || c= '\t' || c= '\n' || c= '\x0b' || c= '\x0c' || c= '\r'

/-- The word that `%ns` finds, as `strlen` sees it, and the rest of the file; none at
the end of the file. -/
def scanWord (n : ℕ) (input : List Char) : Option (List Char×List Char) :=
  let input := input.dropWhile isSpace
  if input=[] then none
  else
    let word := (input.takeWhile fun c => !isSpace c).take n
    some (cut word,input.drop word.length)

/-- `fscanf` with `%ns` into an array, which keeps its text at the end of the file. -/
def fscanf (n : ℕ) (array input : List Char) : List Char×List Char :=
  (scanWord n input).getD (array,[])

/-- The variables of `getColors`. -/
structure Reader where
  /-- What is left of the file. -/
  rest : List Char
  /-- The word of the entry. -/
  buffer : List Char
  /-- The boldness of the entry. -/
  boldBuffer : List Char
  /-- The arrays for the colours. -/
  colors : Element→List Char
  /-- The settings of the elements. -/
  settings : Element→Setting

/-- The case of an element. -/
def elementCase (e : Element) (st : Reader) : Reader :=
  if st.buffer=e.name then
    let (color,rest) := fscanf 99 (st.colors e) st.rest
    let colorInt := convertColorToInt color
    let (bold,rest) := fscanf 49 st.boldBuffer rest
    { st with
      rest := rest
      boldBuffer := bold.map Char.toLower
      colors := Function.update st.colors e (color.map Char.toLower)
      settings := Function.update st.settings e
        { color := if colorInt≠ -1 then colorInt else (st.settings e).color
          bold := convertBoldToInt bold } }
  else st

/-- The body of the loop. Its two arrays are not initialised: what they hold at first
is given. -/
def readEntry (junk : List Char×List Char) (st : Reader) : Reader :=
  let (buffer,rest) := fscanf 254 junk.1 st.rest
  if buffer.head?=some '#' then
    -- skip this comment line
    { st with rest := (upToNewline 254 rest).2,buffer := buffer,boldBuffer := junk.2 }
  else
    elements.foldl (fun st e => elementCase e st)
      { st with rest := rest,buffer := buffer,boldBuffer := junk.2 }

/-- The loop over as many entries as there are lines. -/
def readEntries : ℕ→(ℕ→List Char×List Char)→Reader→Reader
  | 0,_,st => st
  | n+1,junk,st => readEntries n (fun i => junk (i+1)) (readEntry (junk 0) st)

/-- The number of newlines in an `int`. -/
def lineCount (content : List Char) : ℤ := (content.count '\n' : ℤ).bmod (2^32)

/-- `getColors` on the content of the file, if it can be opened. -/
def getColors (junk : ℕ→List Char×List Char) (file : Option (List Char))
    (settings : Element→Setting) : Element→Setting :=
  match file with
  | none => settings
  | some content =>
    if lineCount content>0 then
      (readEntries (lineCount content).toNat junk
        ⟨content,[],[],Element.defaultColor,settings⟩).settings
    else settings

/-- An element with the texts of its colour and its boldness. -/
structure Entry where
  /-- The element. -/
  element : Element
  /-- The word for its colour. -/
  color : List Char
  /-- The word for its boldness. -/
  bold : List Char
  deriving DecidableEq

/-- The element of a name. -/
def ofName (word : List Char) : Option Element := elements.find? fun e => word=e.name

/-- The colour that an entry gives an element, if it is valid. -/
def Entry.colorOf (e : Element) (entry : Entry) : Option ℤ :=
  if entry.element=e ∧ convertColorToInt entry.color≠ -1 then some (convertColorToInt entry.color)
  else none

/-- The boldness that an entry gives an element. -/
def Entry.boldOf (e : Element) (entry : Entry) : Option ℤ :=
  if entry.element=e then some (convertBoldToInt entry.bold) else none

/-- The last valid colour of an element. -/
def lastColor (e : Element) (entries : List Entry) : Option ℤ :=
  (entries.filterMap (Entry.colorOf e)).getLast?

/-- The last boldness of an element. -/
def lastBold (e : Element) (entries : List Entry) : Option ℤ :=
  (entries.filterMap (Entry.boldOf e)).getLast?

/-- Settings after entries: those of the last ones, and otherwise unchanged. -/
def setBy (entries : List Entry) (settings : Element→Setting) (e : Element) : Setting :=
  { color := (lastColor e entries).getD (settings e).color
    bold := (lastBold e entries).getD (settings e).bold }

/-- The next entry of a file read word by word, if it is complete; comments and
unknown words set nothing. -/
def nextEntry (input : List Char) : Option (Option Entry×List Char) :=
  match scanWord 254 input with
  | none => none
  | some (word,rest) =>
    if word.head?=some '#' then some (none,(upToNewline 254 rest).2)
    else
      match ofName word with
      | none => some (none,rest)
      | some e =>
        match scanWord 99 rest with
        | none => none
        | some (color,rest) =>
          match scanWord 49 rest with
          | none => none
          | some (bold,rest) => some (some ⟨e,color,bold⟩,rest)

/-- What the first entries of a file set, if there are so many. -/
def takeEntries : ℕ→List Char→Option (List Entry)
  | 0,_ => some []
  | n+1,input =>
    match nextEntry input with
    | none => none
    | some (entry,rest) => (takeEntries n rest).map fun entries => entry.toList++entries

/-- Two lists of entries give every element the same last valid colour and the same last
boldness. -/
def SameLast (entries said : List Entry) : Prop :=
  ∀ e,lastColor e entries=lastColor e said ∧ lastBold e entries=lastBold e said

/-- No element has the name of another. -/
theorem names_nodup : (elements.map Element.name).Nodup := by decide

/-- No name of an element begins like a comment. -/
theorem name_head (e : Element) : e.name.head?≠some '#' := by
  cases e <;> decide

/-- Among different names an element is found by its own. -/
theorem find_name {es : List Element} (hnd : (es.map Element.name).Nodup) {e : Element}
    (he : e∈es) : (es.find? fun e' => e.name=e'.name)=some e := by
  induction es with
  | nil => exact absurd he List.not_mem_nil
  | cons a es ih =>
    rw [List.map_cons,List.nodup_cons] at hnd
    rcases List.mem_cons.mp he with rfl|he
    · exact List.find?_cons_of_pos (by simp)
    · have hne : e.name≠a.name := by
        intro hname
        exact hnd.1 (hname ▸ List.mem_map_of_mem he)
      rw [List.find?_cons_of_neg (by simpa using hne)]
      exact ih hnd.2 he

/-- Every element is found by its name. -/
theorem ofName_name (e : Element) : ofName e.name=some e := by
  have he : e∈elements := by cases e <;> decide
  exact find_name names_nodup he

/-- An element is found by its name only. -/
theorem name_of_ofName {word : List Char} {e : Element} (h : ofName word=some e) :
    word=e.name := by
  simpa using List.find?_some h

variable {st : Reader} {e : Element} {junk : List Char×List Char}

/-- The case of another element does nothing. -/
theorem elementCase_of_ne (h : st.buffer≠e.name) : elementCase e st=st := if_neg h

/-- Setting an element leaves the word that was read in the buffer. -/
theorem elementCase_buffer (e : Element) (st : Reader) :
    (elementCase e st).buffer=st.buffer := by
  rw [elementCase]
  split <;> rfl

/-- Behind its case an entry has no other. -/
theorem foldl_elementCase_of_ne {es : List Element} (h : ∀ e∈es,st.buffer≠e.name) :
    es.foldl (fun st e => elementCase e st) st=st := by
  induction es with
  | nil => rfl
  | cons a es ih =>
    rw [List.foldl_cons,elementCase_of_ne (h a List.mem_cons_self)]
    exact ih fun e he => h e (List.mem_cons_of_mem a he)

/-- The cases of an entry come down to the case of the element that it names. -/
theorem foldl_elementCase {es : List Element} (hnd : (es.map Element.name).Nodup) (st : Reader) :
    es.foldl (fun st e => elementCase e st) st=
      match es.find? fun e => st.buffer=e.name with
      | none => st
      | some e => elementCase e st := by
  induction es with
  | nil => rfl
  | cons a es ih =>
    rw [List.map_cons,List.nodup_cons] at hnd
    rw [List.foldl_cons]
    by_cases ha : st.buffer=a.name
    · rw [List.find?_cons_of_pos (by simpa using ha)]
      refine foldl_elementCase_of_ne fun e he => ?_
      rw [elementCase_buffer,ha]
      intro hname
      exact hnd.1 (hname ▸ List.mem_map_of_mem he)
    · rw [elementCase_of_ne ha,List.find?_cons_of_neg (by simpa using ha)]
      exact ih hnd.2

/-- The case of the element that the word names. -/
theorem elementCase_of_eq {s : Reader} {color rest bold rest' : List Char} (hb : s.buffer=e.name)
    (hc : fscanf 99 (s.colors e) s.rest=(color,rest))
    (hd : fscanf 49 s.boldBuffer rest=(bold,rest')) :
    (elementCase e s).rest=rest' ∧
      (elementCase e s).settings=Function.update s.settings e
        { color := if convertColorToInt color≠ -1 then convertColorToInt color
            else (s.settings e).color
          bold := convertBoldToInt bold } := by
  rw [elementCase,if_pos hb,hc]
  dsimp only
  rw [hd]
  exact ⟨rfl,rfl⟩

/-- What an entry does that is no comment. -/
theorem readEntry_word {buffer rest : List Char} (h : fscanf 254 junk.1 st.rest=(buffer,rest))
    (hc : buffer.head?≠some '#') :
    readEntry junk st=
      match ofName buffer with
      | none => { st with rest := rest,buffer := buffer,boldBuffer := junk.2 }
      | some e => elementCase e { st with rest := rest,buffer := buffer,boldBuffer := junk.2 } := by
  rw [readEntry,h]
  dsimp only
  rw [if_neg hc]
  exact foldl_elementCase names_nodup _

/-- What an entry does that names an element. -/
theorem readEntry_element {word rest₁ color rest₂ bold rest₃ : List Char}
    (hb : fscanf 254 junk.1 st.rest=(word,rest₁)) (hn : ofName word=some e)
    (h₁ : fscanf 99 (st.colors e) rest₁=(color,rest₂))
    (h₂ : fscanf 49 junk.2 rest₂=(bold,rest₃)) :
    (readEntry junk st).rest=rest₃ ∧
      (readEntry junk st).settings=Function.update st.settings e
        { color := if convertColorToInt color≠ -1 then convertColorToInt color
            else (st.settings e).color
          bold := convertBoldToInt bold } := by
  have hname := name_of_ofName hn
  have hc : word.head?≠some '#' := by
    rw [hname]
    exact name_head e
  rw [readEntry_word hb hc,hn]
  exact elementCase_of_eq (s:={ st with rest := rest₁,buffer := word,boldBuffer := junk.2 })
    hname h₁ h₂

/-- A word that is scanned is stored with the rest of the input left to read. -/
theorem fscanf_of_some {n : ℕ} {array input word rest : List Char}
    (h : scanWord n input=some (word,rest)) : fscanf n array input=(word,rest) := by
  rw [fscanf,h]
  rfl

/-- At the end of the file the array is kept. -/
theorem fscanf_of_none {n : ℕ} {array input : List Char} (h : scanWord n input=none) :
    fscanf n array input=(array,[]) := by
  rw [fscanf,h]
  rfl

/-- One entry sets the colour and the boldness of its element where they are valid. -/
theorem setBy_singleton (entry : Entry) (settings : Element→Setting) :
    setBy [entry] settings=Function.update settings entry.element
      { color := if convertColorToInt entry.color≠ -1 then convertColorToInt entry.color
          else (settings entry.element).color
        bold := convertBoldToInt entry.bold } := by
  funext e
  by_cases he : e=entry.element
  · subst he
    rw [Function.update_self]
    by_cases hc : convertColorToInt entry.color= -1 <;>
      simp [setBy,lastColor,lastBold,Entry.colorOf,Entry.boldOf,hc]
  · rw [Function.update_of_ne he]
    simp [setBy,lastColor,lastBold,Entry.colorOf,Entry.boldOf,Ne.symm he]

/-- A complete entry sets what it says. -/
theorem readEntry_next {entry : Option Entry} {rest : List Char}
    (h : nextEntry st.rest=some (entry,rest)) :
    (readEntry junk st).rest=rest ∧
      (readEntry junk st).settings=setBy entry.toList st.settings := by
  unfold nextEntry at h
  cases hw : scanWord 254 st.rest with
  | none => simp [hw] at h
  | some p =>
    obtain ⟨word,rest₁⟩ := p
    have hb : fscanf 254 junk.1 st.rest=(word,rest₁) := fscanf_of_some hw
    simp only [hw] at h
    by_cases hc : word.head?=some '#'
    · rw [if_pos hc] at h
      cases h
      rw [readEntry,hb]
      dsimp only
      rw [if_pos hc]
      exact ⟨rfl,rfl⟩
    · rw [if_neg hc] at h
      cases hn : ofName word with
      | none =>
        simp only [hn] at h
        cases h
        rw [readEntry_word hb hc,hn]
        exact ⟨rfl,rfl⟩
      | some e =>
        simp only [hn] at h
        cases h₁ : scanWord 99 rest₁ with
        | none => simp [h₁] at h
        | some p =>
          obtain ⟨color,rest₂⟩ := p
          simp only [h₁] at h
          cases h₂ : scanWord 49 rest₂ with
          | none => simp [h₂] at h
          | some p =>
            obtain ⟨bold,rest₃⟩ := p
            simp only [h₂] at h
            cases h
            have helement := readEntry_element hb hn (fscanf_of_some h₁) (fscanf_of_some h₂)
            exact ⟨helement.1,helement.2.trans (setBy_singleton ⟨e,color,bold⟩ st.settings).symm⟩

/-- Setting by entries one after the other. -/
theorem setBy_append (entries entries' : List Entry) (settings : Element→Setting) :
    setBy (entries++entries') settings=setBy entries' (setBy entries settings) := by
  funext e
  simp only [setBy,lastColor,lastBold,List.filterMap_append,List.getLast?_append,
    Option.getD_or]

/-- Complete entries set what they say. -/
theorem readEntries_take {n : ℕ} {entries : List Entry} {junk : ℕ→List Char×List Char}
    (h : takeEntries n st.rest=some entries) :
    (readEntries n junk st).settings=setBy entries st.settings := by
  induction n generalizing st entries junk with
  | zero =>
    cases h
    rfl
  | succ n ih =>
    rw [takeEntries] at h
    cases hn : nextEntry st.rest with
    | none => simp [hn] at h
    | some p =>
      obtain ⟨entry,rest⟩ := p
      obtain ⟨hrest,hset⟩ := readEntry_next hn
      rw [hn] at h
      obtain ⟨entries',ht,rfl⟩ := Option.map_eq_some_iff.mp h
      rw [← hrest] at ht
      rw [readEntries,ih ht,hset,setBy_append]

/-- Nothing is scanned at the end of the file. -/
theorem scanWord_nil (n : ℕ) : scanWord n []=none := rfl

/-- When no word is left, an entry is what its arrays hold. -/
theorem readEntry_end {bold : List Char} (h : scanWord 254 st.rest=none) :
    (readEntry (e.name,bold) st).rest=[] ∧
      ((readEntry (e.name,bold) st).settings e).bold=convertBoldToInt bold := by
  have hb : fscanf 254 (e.name,bold).1 st.rest=(e.name,[]) := fscanf_of_none h
  obtain ⟨hrest,hset⟩ := readEntry_element hb (ofName_name e) (fscanf_of_none (scanWord_nil 99))
    (fscanf_of_none (scanWord_nil 49))
  refine ⟨hrest,?_⟩
  rw [hset,Function.update_self]

/-- At the end of the text, entries leave the boldness that the last one has set. -/
theorem readEntries_end {bold : List Char} (n : ℕ) (h : st.rest=[])
    (hs : (st.settings e).bold=convertBoldToInt bold) :
    ((readEntries n (fun _ => (e.name,bold)) st).settings e).bold=convertBoldToInt bold := by
  induction n generalizing st with
  | zero => exact hs
  | succ n ih =>
    have hscan : scanWord 254 st.rest=none := by rw [h,scanWord_nil]
    obtain ⟨hrest,hset⟩ := readEntry_end (e:=e) hscan
    exact ih hrest hset

/-- An incomplete entry gives an element the boldness that its array holds. -/
theorem readEntry_incomplete {input : List Char} (h : nextEntry input=none) :
    ∃ e : Element,∀ bold st,st.rest=input→(readEntry (e.name,bold) st).rest=[] ∧
      ((readEntry (e.name,bold) st).settings e).bold=convertBoldToInt bold := by
  unfold nextEntry at h
  cases hw : scanWord 254 input with
  | none =>
    refine ⟨.host1Color,fun bold st hst => readEntry_end ?_⟩
    rw [hst,hw]
  | some p =>
    obtain ⟨word,rest₁⟩ := p
    simp only [hw] at h
    by_cases hc : word.head?=some '#'
    · simp [hc] at h
    · rw [if_neg hc] at h
      cases hn : ofName word with
      | none => simp [hn] at h
      | some e =>
        simp only [hn] at h
        refine ⟨e,fun bold st hst => ?_⟩
        have hb : fscanf 254 (e.name,bold).1 st.rest=(word,rest₁) := by
          rw [hst]
          exact fscanf_of_some hw
        -- the boldness is missing, with or without the colour
        obtain ⟨color,rest₂,h₁,h₂⟩ : ∃ color rest₂,
            fscanf 99 (st.colors e) rest₁=(color,rest₂) ∧ scanWord 49 rest₂=none := by
          cases h₁ : scanWord 99 rest₁ with
          | none => exact ⟨_,_,fscanf_of_none h₁,scanWord_nil 49⟩
          | some p =>
            obtain ⟨color,rest₂⟩ := p
            refine ⟨color,rest₂,fscanf_of_some h₁,?_⟩
            cases h₂ : scanWord 49 rest₂ with
            | none => rfl
            | some p => simp [h₁,h₂] at h
        obtain ⟨hrest,hset⟩ := readEntry_element hb hn h₁ (fscanf_of_none h₂)
        refine ⟨hrest,?_⟩
        rw [hset,Function.update_self]

/-- Where there are too few complete entries, the boldness of an element is what the
arrays hold. -/
theorem readEntries_incomplete {n : ℕ} {input : List Char} (h : takeEntries n input=none) :
    ∃ e : Element,∀ bold st,st.rest=input→
      ((readEntries n (fun _ => (e.name,bold)) st).settings e).bold=convertBoldToInt bold := by
  induction n generalizing input with
  | zero => simp [takeEntries] at h
  | succ n ih =>
    rw [takeEntries] at h
    cases hn : nextEntry input with
    | none =>
      obtain ⟨e,he⟩ := readEntry_incomplete hn
      refine ⟨e,fun bold st hst => ?_⟩
      obtain ⟨hrest,hset⟩ := he bold st hst
      exact readEntries_end n hrest hset
    | some p =>
      obtain ⟨entry,rest⟩ := p
      simp only [hn,Option.map_eq_none_iff] at h
      obtain ⟨e,he⟩ := ih h
      refine ⟨e,fun bold st hst => ?_⟩
      rw [← hst] at hn
      exact he bold _ (readEntry_next hn).1

/-- The number of entries that are taken. -/
theorem getColors_eq (junk : ℕ→List Char×List Char) (content : List Char)
    (settings : Element→Setting) :
    getColors junk (some content) settings=
      (readEntries (lineCount content).toNat junk
        ⟨content,[],[],Element.defaultColor,settings⟩).settings := by
  rw [getColors]
  split
  · rfl
  · next h =>
    have hz : (lineCount content).toNat=0 := by omega
    rw [hz]
    rfl

/-- With enough complete entries the file sets what they say. -/
theorem getColors_take {content : List Char} {entries : List Entry}
    (h : takeEntries (lineCount content).toNat content=some entries)
    (junk : ℕ→List Char×List Char) (settings : Element→Setting) :
    getColors junk (some content) settings=setBy entries settings := by
  rw [getColors_eq]
  exact @readEntries_take ⟨content,[],[],Element.defaultColor,settings⟩ _ entries junk h

/-- With too few of them the boldness of an element is what the arrays hold. -/
theorem getColors_incomplete {content : List Char}
    (h : takeEntries (lineCount content).toNat content=none) :
    ∃ e : Element,∀ bold settings,
      (getColors (fun _ => (e.name,bold)) (some content) settings e).bold=
        convertBoldToInt bold := by
  obtain ⟨e,he⟩ := readEntries_incomplete h
  refine ⟨e,fun bold settings => ?_⟩
  rw [getColors_eq]
  exact he bold _ rfl

/-- Two texts of boldness give different numbers. -/
theorem convertBoldToInt_ne : convertBoldToInt "bold".toList≠convertBoldToInt "nonbold".toList := by
  decide

/-- A default tells whether there is a value. -/
theorem getD_inj {a b : Option ℤ} (h : ∀ d,a.getD d=b.getD d) : a=b := by
  cases a with
  | none =>
    cases b with
    | none => rfl
    | some y =>
      have hy : y+1=y := h (y+1)
      omega
  | some x =>
    cases b with
    | none =>
      have hx : x=x+1 := h (x+1)
      omega
    | some y => simpa using h 0

/-- A file sets what some entries say, whatever the arrays hold that are not initialised, exactly
when there are enough complete entries and those that are taken say the same. -/
theorem getColors_iff_taken (content : List Char) (said : List Entry) :
    (∀ junk settings,getColors junk (some content) settings=setBy said settings) ↔
      ∃ entries,takeEntries (lineCount content).toNat content=some entries ∧ SameLast entries said := by
  constructor
  · intro h
    cases ht : takeEntries (lineCount content).toNat content with
    | none =>
      obtain ⟨e,he⟩ := getColors_incomplete ht
      -- the same run with two boldnesses in the arrays
      have hbold : ∀ bold,(setBy said (fun _ => ⟨0,0⟩) e).bold=convertBoldToInt bold := by
        intro bold
        rw [← h (fun _ => (e.name,bold)) (fun _ => ⟨0,0⟩)]
        exact he bold _
      exact absurd ((hbold _).symm.trans (hbold _)) convertBoldToInt_ne
    | some entries =>
      have hset : ∀ settings,setBy entries settings=setBy said settings := by
        intro settings
        rw [← h (fun _ => ([],[])) settings,getColors_take ht]
      refine ⟨entries,rfl,fun e => ⟨getD_inj fun d => ?_,getD_inj fun d => ?_⟩⟩
      · exact congrArg Setting.color (congrFun (hset fun _ => ⟨d,0⟩) e)
      · exact congrArg Setting.bold (congrFun (hset fun _ => ⟨0,d⟩) e)
  · rintro ⟨entries,ht,hlast⟩ junk settings
    rw [getColors_take ht]
    funext e
    rw [setBy,(hlast e).1,(hlast e).2,setBy]

end IftopColor.ColorFile
