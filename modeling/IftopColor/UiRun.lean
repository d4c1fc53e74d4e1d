import IftopColor.UiSettings

/-!
# Runs of `ui_loop`

A run is followed key by key: its options come from the commands, its texts from the lines, and
a line in the editor is the one that the keys since its prompt have made of the text in force.
The net filter is installed before its text is kept. The screen filter of the configuration is
kept without being compiled.
-/

namespace IftopColor.UiRun

open Options OptionsMake TextBuffer Edline ScreenFilter UiLoop UiSettings

variable {Program Regex : Type}

/-- What the lines at a prompt make of its text. -/
inductive Edited (accept : Option (List Char)→List Char→Option (List Char)) :
    Option (List Char)→List (List ℤ)→Option (List Char)→Prop
  | nil (text : Option (List Char)) : Edited accept text [] text
  | entered {text text' : Option (List Char)} {entries : List (List ℤ)} {keys : List ℤ}
      {line : List Char} (h : Edited accept text entries text')
      (hk : Edits keys (first (text'.map cString)) (.returned (some line))) :
      Edited accept text (entries++[keys]) (accept text' line)
  | cancelled {text text' : Option (List Char)} {entries : List (List ℤ)} {keys : List ℤ}
      (h : Edited accept text entries text')
      (hk : Edits keys (first (text'.map cString)) (.returned none)) :
      Edited accept text (entries++[keys]) text'

/-- `libpcap` takes a filter. -/
def accepts (pcap : Pcap Program) (filter : Option (List Char)) : Bool :=
  match pcap.compile (filterText filter) with
  | .error _ => false
  | .ok program => (pcap.setfilter program).isOk

/-- A line that is entered as a net filter, with what is in force before. -/
def acceptNet (pcap : Pcap Program) (text : Option (List Char)) (line : List Char) :
    Option (List Char) :=
  if accepts pcap (netFilterText line) then netFilterText line else text

/-- A line that is entered as a screen filter. -/
def acceptScreen (regcomp : List Char→Option Regex) (_ : Option (List Char)) (line : List Char) :
    Option (List Char) :=
  if Accepts regcomp line then some line else none

/-- A line that is entered at a prompt. -/
def accept (pcap : Pcap Program) (regcomp : List Char→Option Regex) :
    Prompt→Option (List Char)→List Char→Option (List Char)
  | .net => acceptNet pcap
  | .screen => acceptScreen regcomp

/-- The program of a net filter. -/
def InForce (pcap : Pcap Program) (text : Option (List Char)) (program : Program) : Prop :=
  pcap.compile (filterText text)=.ok program

/-- The texts are short enough for `edline`. -/
def ShortTexts (o : UiOptions) : Prop :=
  ∀ prompt text,o.text prompt=some text→text.length<2^31

/-- Characters of a text. -/
def textLength (text : Option (List Char)) : ℕ := (text.getD []).length

/-- Keys at a prompt. -/
def typed (prompt : Prompt) (r : Reading×List Item) : ℕ :=
  let current := match r.1 with
    | .editing p keys => if p=prompt then keys.length else 0
    | _ => 0
  ((entriesOf prompt r.2).map List.length).sum+current

/-- So many keys may come that a line gets too long for the editor. -/
def LongLine (o : UiOptions) (n : ℕ) : Prop := ∃ prompt,2^30≤textLength (o.text prompt)+n

/-- Characters of a line that is edited or returned. -/
def outcomeLength : Outcome CharZipper→ℕ
  | .editing z => z.text.length
  | .returned text => textLength text

/-- A line gets longer by a character for every key at most. -/
theorem edits_length {keys : List ℤ} {z : CharZipper} {o : Outcome CharZipper}
    (h : Edits keys z o) : outcomeLength o≤z.text.length+keys.length := by
  induction h with
  | nil z => exact le_refl _
  | cons h _ _ ih =>
    have hone := edit_length h
    rw [List.length_cons]
    omega
  | enter => exact Nat.le_add_right _ _
  | cancel => exact Nat.zero_le _

/-- A line begins with the text in force, up to a NUL. -/
theorem first_length (text : Option (List Char)) :
    (first (text.map cString)).text.length≤textLength text := by
  rw [text_length]
  cases text with
  | none => exact le_refl _
  | some text => exact (List.takeWhile_prefix _).length_le

/-- What is accepted is a line or the text that was there. -/
def Keeps (accept : Option (List Char)→List Char→Option (List Char)) : Prop :=
  ∀ text line,textLength (accept text line)≤ max (textLength text) line.length

/-- A text has no more characters than there were keys for its lines. -/
theorem edited_length {accept : Option (List Char)→List Char→Option (List Char)}
    (hk : Keeps accept) {text text' : Option (List Char)} {entries : List (List ℤ)}
    (h : Edited accept text entries text') :
    textLength text'≤textLength text+(entries.map List.length).sum := by
  induction h with
  | nil => exact Nat.le_add_right _ _
  | @entered text' entries keys line h he ih =>
    have hline : line.length≤_ := edits_length he
    have hfirst := first_length text'
    have haccept := hk text' line
    rw [List.map_append,List.sum_append,List.map_singleton,List.sum_singleton]
    omega
  | cancelled h he ih =>
    rw [List.map_append,List.sum_append]
    omega

/-- Editing with one key more is editing with that key afterwards. -/
theorem edits_snoc {keys : List ℤ} {c : ℤ} {z z' : CharZipper} {o : Outcome CharZipper}
    (h : Edits keys z (.editing z')) (hc : Edits [c] z' o) : Edits (keys++[c]) z o := by
  generalize ho : Outcome.editing z'=o' at h
  induction h with
  | nil z =>
    cases ho
    exact hc
  | cons he hends _ ih => exact .cons he hends (ih ho)
  | enter => cases ho
  | cancel => cases ho

/-- A key after which the line is still edited does not end it. -/
theorem not_ends {c : ℤ} {z z' : CharZipper} (h : Edits [c] z (.editing z')) : ends c=false := by
  cases h with
  | cons _ hc _ => exact hc

/-- A key that ends the line returns its text for the enter key and nothing otherwise. -/
theorem ends_of_returned {c : ℤ} {z : CharZipper} {text : Option (List Char)}
    (h : Edits [c] z (.returned text)) : ends c=true ∧
      (text=some z.text ∧ (c=keyEnter ∨ c=13) ∨ text=none ∧ ¬(c=keyEnter ∨ c=13)) := by
  cases h with
  | cons _ _ hs => cases hs
  | enter _ _ hc => exact ⟨decide_eq_true (by tauto),.inl ⟨rfl,hc⟩⟩
  | cancel _ _ hc =>
    refine ⟨decide_eq_true (by tauto),.inr ⟨rfl,?_⟩⟩
    unfold keyEnter
    omega

variable {junk : Buffer} {pcap : Pcap Program} {regcomp : List Char→Option Regex}

/-- A filter is installed exactly when `libpcap` takes it. -/
theorem setFilterCode_spec (filter : Option (List Char)) (installed : Program) :
    (accepts pcap filter=true ∧ ∃ program,setFilterCode pcap filter installed=(none,program) ∧
        InForce pcap filter program) ∨
      accepts pcap filter=false ∧ ∃ m,setFilterCode pcap filter installed=(some m,installed) := by
  unfold setFilterCode accepts InForce
  cases hc : pcap.compile (filterText filter) with
  | error e => exact .inr ⟨rfl,e,rfl⟩
  | ok program =>
    dsimp only
    cases hs : pcap.setfilter program with
    | error e => exact .inr ⟨rfl,e,rfl⟩
    | ok _ => exact .inl ⟨rfl,program,rfl,rfl⟩

/-- The options with another text. -/
def setText (o : UiOptions) (text : Option (List Char)) : Prompt→UiOptions
  | .net => {o with filtercode := text}
  | .screen => {o with screenfilter := text}

/-- A net filter that is entered is installed, or the one in force stays. -/
theorem entered_net (text : List Char) {s : UiState Program Regex}
    (h : InForce pcap (s.options.text .net) s.installed) :
    let s' := (entered pcap regcomp .net text s).1
    s'.options=setText s.options (accept pcap regcomp .net (s.options.text .net) text) .net ∧
      InForce pcap (s'.options.text .net) s'.installed := by
  rcases @setFilterCode_spec _ pcap (netFilterText text) s.installed with
    ⟨ha,program,hset,hin⟩|⟨ha,m,hset⟩
  · have hnew : accept pcap regcomp .net (s.options.text .net) text=netFilterText text := if_pos ha
    unfold entered
    rw [hset,hnew]
    exact ⟨rfl,hin⟩
  · have hold : accept pcap regcomp .net (s.options.text .net) text=s.options.text .net :=
      if_neg (Bool.eq_false_iff.mp ha)
    unfold entered
    rw [hset,hold]
    exact ⟨rfl,h⟩

/-- A screen filter that is entered replaces the old one if it compiles and removes it if not. -/
theorem entered_screen (text : List Char) (s : UiState Program Regex) :
    let s' := (entered pcap regcomp .screen text s).1
    s'.options=setText s.options (accept pcap regcomp .screen (s.options.text .screen) text)
      .screen ∧ s'.installed=s.installed := by
  by_cases h : Accepts regcomp text
  · have hset : screenFilterSet regcomp text s.filter=(true,⟨some text,regcomp text⟩) :=
      Prod.ext (by rw [set_result,decide_eq_true h]) (set_accepted h s.filter)
    have hnew : accept pcap regcomp .screen (s.options.text .screen) text=some text := if_pos h
    unfold entered
    dsimp only
    rw [hset,hnew]
    exact ⟨rfl,rfl⟩
  · have hset := set_rejected h s.filter
    have hnew : accept pcap regcomp .screen (s.options.text .screen) text=none := if_neg h
    unfold entered
    dsimp only
    rw [hset,hnew]
    exact ⟨rfl,rfl⟩

/-- What a line that is entered does at either prompt. -/
theorem entered_spec (prompt : Prompt) (text : List Char) {s : UiState Program Regex}
    (h : InForce pcap (s.options.text .net) s.installed) :
    let s' := (entered pcap regcomp prompt text s).1
    s'.options=setText s.options (accept pcap regcomp prompt (s.options.text prompt) text)
      prompt ∧ InForce pcap (s'.options.text .net) s'.installed := by
  cases prompt with
  | net => exact entered_net text h
  | screen =>
    obtain ⟨ho,hi⟩ := @entered_screen _ _ pcap regcomp text s
    refine ⟨ho,?_⟩
    rw [ho,hi]
    exact h

/-- The line in the editor is the one that its keys have made of the text in force. -/
inductive Waits (o : UiOptions) : Mode→Reading→Prop
  | commands : Waits o .commands .commands
  | ended : Waits o .ended .ended
  | editing {prompt : Prompt} {line : Line} {keys : List ℤ} {z : CharZipper}
      (he : Edits keys (first ((o.text prompt).map cString)) (.editing z)) (hs : Shows line z) :
      Waits o (.editing prompt line) (.editing prompt keys)

/-- A line that ends with the enter key. -/
def Confirmed (keys : List ℤ) : Prop := ∃ c∈keys.getLast?,c=keyEnter ∨ c=13

/-- A line was entered at the prompt for the screen filter. -/
def ScreenEntered (items : List Item) : Prop := ∃ keys∈entriesOf .screen items,Confirmed keys

/-- A screen filter has its program. -/
def Compiled (f : Filter (List Char) Regex) : Prop := f.screenfilter.isSome→f.preg.isSome

/-- The screen filter is the one from the start until a line is entered, and has its program from
then on. -/
def FilterFollows (f₀ f : Filter (List Char) Regex) (items : List Item) : Prop :=
  ¬ScreenEntered items ∧ f=f₀ ∨ ScreenEntered items ∧ Compiled f

/-- The loop has done what a stream is meant to do. -/
structure Follows (pcap : Pcap Program) (regcomp : List Char→Option Regex)
    (s₀ s : UiState Program Regex) (r : Reading×List Item) : Prop where
  /-- The options come from the commands. -/
  options : s.options=withTexts ((commandsOf r.2).foldl apply s₀.options) s.options
  /-- The texts come from their lines. -/
  texts : ∀ prompt,Edited (accept pcap regcomp prompt) (s₀.options.text prompt)
    (entriesOf prompt r.2) (s.options.text prompt)
  /-- The net filter is in force. -/
  installed : InForce pcap (s.options.text .net) s.installed
  /-- The screen filter and its program. -/
  filter : FilterFollows s₀.filter s.filter r.2
  /-- The texts can be edited again. -/
  short : ShortTexts s.options
  /-- What the loop waits for. -/
  waits : Waits s.options s.mode r.1

/-- A loop that is ready for its first key. -/
structure Ready (pcap : Pcap Program) (s : UiState Program Regex) : Prop where
  /-- The first key is a command. -/
  mode : s.mode=.commands
  /-- The net filter is in force. -/
  installed : InForce pcap (s.options.text .net) s.installed
  /-- The texts can be edited. -/
  short : ShortTexts s.options

/-- A command leaves the texts that are entered on lines. -/
theorem apply_text (o : UiOptions) (k : Command) (prompt : Prompt) :
    (apply o k).text prompt=o.text prompt := by
  cases prompt <;> cases k <;> first | rfl | (rw [apply_up]; rfl)

/-- For short texts the editor gets its first block. -/
theorem ShortTexts.allocated {o : UiOptions} (h : ShortTexts o) (prompt : Prompt) :
    Allocated ((o.text prompt).map cString) := by
  intro text hmap
  obtain ⟨t,ht,rfl⟩ := Option.map_eq_some_iff.mp hmap
  have hle : (cString t).1.length≤t.length := (List.takeWhile_prefix _).length_le
  exact .inl (hle.trans_lt (h prompt t ht))

/-- A text in the editor is shorter than the largest `int`. -/
theorem shows_short {line : Line} {z : CharZipper} (h : Shows line z) : z.text.length<2^31 := by
  have hfits := h.text.fits
  have hsize := h.size_eq
  have hint := h.int
  omega

variable {s₀ s : UiState Program Regex} {items : List Item}

/-- One command more is the last of the commands. -/
theorem commandsOf_append (items : List Item) (k : Command) :
    commandsOf (items++[.command k])=commandsOf items++[k] := by
  rw [commandsOf,List.filterMap_append]
  rfl

/-- A command adds no line to those entered. -/
theorem entriesOf_command (prompt : Prompt) (items : List Item) (k : Command) :
    entriesOf prompt (items++[.command k])=entriesOf prompt items := by
  rw [entriesOf,List.filterMap_append]
  exact List.append_nil _

/-- A line that is entered adds no command. -/
theorem commandsOf_entry (prompt : Prompt) (items : List Item) (keys : List ℤ) :
    commandsOf (items++[.entry prompt keys])=commandsOf items := by
  rw [commandsOf,List.filterMap_append]
  exact List.append_nil _

/-- A line adds its keys to those of its own prompt only. -/
theorem entriesOf_append (prompt p : Prompt) (items : List Item) (keys : List ℤ) :
    entriesOf prompt (items++[.entry p keys])=
      entriesOf prompt items++if p=prompt then [keys] else [] := by
  rw [entriesOf,List.filterMap_append]
  congr 1
  by_cases h : p=prompt
  · have he : Item.entry? prompt (.entry p keys)=some keys := if_pos h
    rw [if_pos h,List.filterMap_cons_some he,List.filterMap_nil]
  · have he : Item.entry? prompt (.entry p keys)=none := if_neg h
    rw [if_neg h,List.filterMap_cons_none he,List.filterMap_nil]

/-- What is kept when a command has set the options and the loop waits for something. -/
theorem Follows.afterCommand (h : Follows pcap regcomp s₀ s (.commands,items)) (k : Command)
    {mode : Mode} {reading : Reading} (hw : Waits (apply s.options k) mode reading) :
    Follows pcap regcomp s₀ {s with options := apply s.options k,mode := mode}
      (reading,items++[.command k]) where
  options := by
    rw [commandsOf_append,List.foldl_append]
    have ho := congrArg (fun o => apply o k) h.options
    dsimp only at ho ⊢
    rw [apply_withTexts] at ho
    rw [ho]
    rfl
  texts := by
    intro prompt
    rw [entriesOf_command]
    exact (apply_text s.options k prompt).symm ▸ h.texts prompt
  installed := (apply_text s.options k .net).symm ▸ h.installed
  filter := by
    have hf : UiState.filter {s with options := apply s.options k,mode := mode}=s.filter :=
      congrArg (fun text => (⟨text,s.preg⟩ : Filter _ _)) (apply_text s.options k .screen)
    unfold FilterFollows ScreenEntered
    rw [entriesOf_command,hf]
    exact h.filter
  short := fun prompt text ht => h.short prompt text (apply_text s.options k prompt ▸ ht)
  waits := hw

/-- Commands that start the editor or end the loop, and all the others. -/
theorem readCommand_cases (k : Command) :
    k=.quit ∨ k=.netFilter ∨ k=.screenFilter ∨ readCommand k=.commands := by
  cases k <;> first | exact .inl rfl | exact .inr (.inl rfl) | exact .inr (.inr (.inl rfl)) |
    exact .inr (.inr (.inr rfl))

/-- Every prompt keeps a text or a line. -/
theorem accept_keeps (pcap : Pcap Program) (regcomp : List Char→Option Regex) (prompt : Prompt) :
    Keeps (accept pcap regcomp prompt) := by
  intro text line
  cases prompt with
  | net =>
    have hline : textLength (netFilterText line)≤line.length := by
      unfold netFilterText
      split
      · exact Nat.zero_le _
      · exact le_refl _
    unfold accept acceptNet
    dsimp only
    split
    · exact hline.trans (le_max_right _ _)
    · exact le_max_left _ _
  | screen =>
    simp only [accept,acceptScreen]
    split
    · exact le_max_right _ _
    · exact Nat.zero_le _

/-- The text at a prompt has no more characters than there were keys. -/
theorem Follows.text_length {r : Reading×List Item} (h : Follows pcap regcomp s₀ s r)
    (prompt : Prompt) : textLength (s.options.text prompt)≤textLength (s₀.options.text prompt)+
      ((entriesOf prompt r.2).map List.length).sum :=
  edited_length (accept_keeps pcap regcomp prompt) (h.texts prompt)

/-- A key is good if it is followed in the stream, or the line is too long. -/
def KeyFollowed (junk : Buffer) (pcap : Pcap Program) (regcomp : List Char→Option Regex)
    (s₀ s : UiState Program Regex) (r : Reading×List Item) (keycode : ℤ) : Prop :=
  (uiKey junk pcap regcomp keycode s=.error .abort ∧
    ∃ prompt,2^30≤textLength (s₀.options.text prompt)+(typed prompt r+1)) ∨
  ∃ s' calls,uiKey junk pcap regcomp keycode s=.ok (s',calls) ∧
    Follows pcap regcomp s₀ s' (readKey r keycode)

/-- A key for a prompt is followed: it starts the editor on the present text. -/
theorem Follows.prompt (h : Follows pcap regcomp s₀ s (.commands,items)) {keycode : ℤ}
    {k : Command} {prompt : Prompt} (hk : command keycode=k)
    (hread : readCommand k=.editing prompt []) (happly : apply s.options k=s.options)
    (hkey : uiKey junk pcap regcomp keycode s=startEditing junk prompt s) :
    KeyFollowed junk pcap regcomp s₀ s (.commands,items) keycode := by
  rw [KeyFollowed,hkey,startEditing]
  rcases start_spec junk (h.short.allocated prompt) with ⟨hno,hlong⟩|⟨line,hok,hs⟩
  · have hfirst := first_length (s.options.text prompt)
    have htext := h.text_length prompt
    rw [hno]
    refine .inl ⟨rfl,prompt,?_⟩
    unfold typed
    dsimp only at htext ⊢
    omega
  · rw [hok]
    have hw : Waits (apply s.options k) (.editing prompt line) (.editing prompt []) := by
      rw [happly]
      exact .editing (.nil _) hs
    have hf := h.afterCommand k hw
    rw [happly] at hf
    refine .inr ⟨_,_,rfl,?_⟩
    rw [readKey,hk,hread]
    exact hf

/-- A key for any other command is followed: it changes the options as read. -/
theorem Follows.commandKey (h : Follows pcap regcomp s₀ s (.commands,items))
    (hm : s.mode=.commands) (keycode : ℤ) :
    KeyFollowed junk pcap regcomp s₀ s (.commands,items) keycode := by
  obtain ⟨options,preg,installed,mode⟩ := s
  obtain rfl : mode=.commands := hm
  rcases readCommand_cases (command keycode) with hk|hk|hk|hk
  · refine .inr ⟨⟨options,preg,installed,.ended⟩,[.tick false],?_,?_⟩
    · unfold uiKey
      dsimp only
      rw [hk]
    · rw [readKey,hk]
      exact h.afterCommand .quit .ended
  · refine h.prompt hk rfl rfl ?_
    unfold uiKey
    dsimp only
    rw [hk]
  · refine h.prompt hk rfl rfl ?_
    unfold uiKey
    dsimp only
    rw [hk]
  · generalize hc : command keycode=k at hk
    refine .inr ⟨⟨apply options k,preg,installed,.commands⟩,
      (runCommand k options).2++[.tick false],?_,?_⟩
    · unfold uiKey
      dsimp only
      rw [hc]
      cases k with
      | quit => cases hk
      | netFilter => cases hk
      | screenFilter => cases hk
      | _ => rfl
    · rw [readKey,hc,hk]
      exact h.afterCommand k .commands

/-- A text that is set, and the other one. -/
theorem text_setText (o : UiOptions) (text : Option (List Char)) (prompt p : Prompt) :
    (setText o text prompt).text p=if prompt=p then text else o.text p := by
  cases prompt <;> cases p <;> rfl

/-- Setting a text changes nothing else. -/
theorem setText_withTexts (o texts : UiOptions) (text : Option (List Char)) (prompt : Prompt)
    (h : texts=withTexts o texts) :
    setText texts text prompt=withTexts o (setText texts text prompt) := by
  cases prompt with
  | net => exact congrArg (fun o => setText o text .net) h
  | screen => exact congrArg (fun o => setText o text .screen) h

/-- What a line does to the screen filter. -/
def EntryFilter (prompt : Prompt) (keys : List ℤ) (f f' : Filter (List Char) Regex) : Prop :=
  ¬(prompt=.screen ∧ Confirmed keys) ∧ f'=f ∨ (prompt=.screen ∧ Confirmed keys) ∧ Compiled f'

/-- One line more is entered for the screen filter if it is for its prompt and confirmed. -/
theorem screenEntered_append (items : List Item) (prompt : Prompt) (keys : List ℤ) :
    ScreenEntered (items++[.entry prompt keys]) ↔
      ScreenEntered items ∨ prompt=.screen ∧ Confirmed keys := by
  unfold ScreenEntered
  rw [entriesOf_append]
  by_cases hp : prompt=.screen <;> simp [hp,or_and_right,exists_or]

/-- A line that ends leaves the screen filter that its text compiles to. -/
theorem FilterFollows.afterEntry {f₀ f f' : Filter (List Char) Regex} {prompt : Prompt}
    {keys : List ℤ} (h : FilterFollows f₀ f items) (hf : EntryFilter prompt keys f f') :
    FilterFollows f₀ f' (items++[.entry prompt keys]) := by
  unfold FilterFollows
  rw [screenEntered_append]
  rcases hf with ⟨hno,rfl⟩|⟨hyes,hc⟩
  · rcases h with ⟨hnone,rfl⟩|⟨hsome,hc⟩
    · exact .inl ⟨not_or.mpr ⟨hnone,hno⟩,rfl⟩
    · exact .inr ⟨.inl hsome,hc⟩
  · exact .inr ⟨.inr hyes,hc⟩

/-- The loop has done what a stream is meant to do, and the text of one prompt is set. -/
theorem Follows.afterEntry (h : Follows pcap regcomp s₀ s (r,items)) {prompt : Prompt}
    {keys : List ℤ} {text : Option (List Char)} {s' : UiState Program Regex}
    (ho : s'.options=setText s.options text prompt) (hm : s'.mode=.commands)
    (hi : InForce pcap (s'.options.text .net) s'.installed)
    (hshort : ∀ t,text=some t→t.length<2^31) (hf : EntryFilter prompt keys s.filter s'.filter)
    (he : Edited (accept pcap regcomp prompt) (s₀.options.text prompt)
      (entriesOf prompt items++[keys]) text) :
    Follows pcap regcomp s₀ s' (.commands,items++[.entry prompt keys]) where
  options := by
    rw [commandsOf_entry,ho]
    exact setText_withTexts _ _ _ _ h.options
  texts := by
    intro p
    rw [entriesOf_append,ho,text_setText]
    by_cases hp : prompt=p
    · subst hp
      rw [if_pos rfl,if_pos rfl]
      exact he
    · rw [if_neg hp,if_neg hp,List.append_nil]
      exact h.texts p
  installed := hi
  filter := h.filter.afterEntry hf
  short := by
    intro p t ht
    rw [ho,text_setText] at ht
    split at ht
    · exact hshort t ht
    · exact h.short p t ht
  waits := by
    rw [hm]
    exact .commands

/-- Setting a text to what it is changes nothing. -/
theorem setText_self (o : UiOptions) (prompt : Prompt) : setText o (o.text prompt) prompt=o := by
  cases prompt <;> rfl

/-- What a prompt accepts is short if the text before and the line are. -/
theorem accept_short {o : UiOptions} (h : ShortTexts o) {line : List Char}
    (hl : line.length<2^31) (prompt : Prompt) :
    ∀ t,accept pcap regcomp prompt (o.text prompt) line=some t→t.length<2^31 := by
  intro t ht
  cases prompt with
  | net =>
    simp only [accept,acceptNet] at ht
    split at ht
    · unfold netFilterText at ht
      split at ht
      · cases ht
      · cases ht
        exact hl
    · exact h .net t ht
  | screen =>
    simp only [accept,acceptScreen] at ht
    split at ht
    · cases ht
      exact hl
    · cases ht

/-- What a line that is entered does to the screen filter. -/
theorem entered_filter {prompt : Prompt} {keys : List ℤ} (text : List Char)
    (s : UiState Program Regex) (hc : Confirmed keys) :
    EntryFilter prompt keys s.filter (entered pcap regcomp prompt text s).1.filter := by
  cases prompt with
  | net =>
    have hother : ¬(Prompt.net=.screen ∧ Confirmed keys) := fun h => Prompt.noConfusion h.1
    refine .inl ⟨hother,?_⟩
    unfold entered
    dsimp only
    split <;> rfl
  | screen =>
    refine .inr ⟨⟨rfl,hc⟩,?_⟩
    unfold entered screenFilterSet
    cases hr : regcomp text with
    | some preg => exact fun _ => rfl
    | none =>
      intro hsome
      unfold Filter.freed UiState.filter at hsome
      cases hf : s.options.screenfilter <;> simp [hf] at hsome

/-- A key in the editor is followed: it edits the line or ends it. -/
theorem Follows.editorKey {prompt : Prompt} {line : Line} {keys : List ℤ} {z : CharZipper}
    (h : Follows pcap regcomp s₀ s (.editing prompt keys,items)) (hm : s.mode=.editing prompt line)
    (he : Edits keys (first ((s.options.text prompt).map cString)) (.editing z))
    (hs : Shows line z) (keycode : ℤ) :
    KeyFollowed junk pcap regcomp s₀ s (.editing prompt keys,items) keycode := by
  have hf := loop_faithful hs junk [keycode]
  unfold KeyFollowed uiKey
  rw [hm]
  dsimp only
  generalize loop junk [keycode] line=result at hf
  match result,hf with
  | .error .abort,hlong =>
    have hline : z.text.length≤_ := edits_length he
    have hfirst := first_length (s.options.text prompt)
    have htext := h.text_length prompt
    have hone : 2^30≤z.text.length+1 := hlong
    refine .inl ⟨rfl,prompt,?_⟩
    unfold typed
    dsimp only at htext ⊢
    rw [if_pos rfl]
    omega
  | .error (.fault _),hf => exact hf.elim
  | .ok (.editing line'),⟨z',hz,hs',_⟩ =>
    refine .inr ⟨_,_,rfl,?_⟩
    rw [readKey,not_ends hz]
    exact ⟨h.options,h.texts,h.installed,h.filter,h.short,.editing (edits_snoc he hz) hs'⟩
  | .ok (.returned text),hz =>
    obtain ⟨hends,hline⟩ := ends_of_returned hz
    have hall := edits_snoc he hz
    have hlast : Confirmed (keys++[keycode]) ↔ keycode=keyEnter ∨ keycode=13 := by
      simp [Confirmed]
    refine .inr ⟨_,_,rfl,?_⟩
    rw [readKey,hends]
    rcases hline with ⟨rfl,hc⟩|⟨rfl,hc⟩
    · obtain ⟨ho,hi⟩ := @entered_spec _ _ pcap regcomp prompt z.text s h.installed
      exact h.afterEntry ho rfl hi (accept_short h.short (shows_short hs) prompt)
        (entered_filter z.text s (hlast.mpr hc)) ((h.texts prompt).entered hall)
    · have hcancel := (h.texts prompt).cancelled hall
      exact h.afterEntry (setText_self s.options prompt).symm rfl h.installed (h.short prompt)
        (.inl ⟨fun hs => hc (hlast.mp hs.2),rfl⟩) hcancel

/-- Every key is followed, from every state that has followed the keys before. -/
theorem Follows.key {r : Reading×List Item} (h : Follows pcap regcomp s₀ s r) (keycode : ℤ) :
    KeyFollowed junk pcap regcomp s₀ s r keycode := by
  obtain ⟨r,items⟩ := r
  have hw := h.waits
  dsimp only at hw
  generalize hm : s.mode=mode at hw
  cases hw with
  | commands => exact h.commandKey hm keycode
  | ended =>
    refine .inr ⟨s,[],?_,h⟩
    unfold uiKey
    rw [hm]
  | editing he hs => exact h.editorKey hm he hs keycode

/-- A key is typed at one prompt at most. -/
theorem typed_readKey (prompt : Prompt) (r : Reading×List Item) (keycode : ℤ) :
    typed prompt (readKey r keycode)≤typed prompt r+1 := by
  obtain ⟨r,items⟩ := r
  cases r with
  | ended => exact Nat.le_succ _
  | commands =>
    have hread : readCommand (command keycode)=.commands ∨
        readCommand (command keycode)=.ended ∨ ∃ p,readCommand (command keycode)=.editing p [] := by
      cases command keycode <;> simp [readCommand]
    unfold typed readKey
    dsimp only
    rw [entriesOf_command]
    rcases hread with hr|hr|⟨p,hr⟩ <;> rw [hr] <;> dsimp only
    · omega
    · omega
    · split <;> simp
  | editing p keys =>
    unfold typed readKey
    dsimp only
    split
    · dsimp only
      rw [entriesOf_append]
      split
      · simp only [List.map_append,List.sum_append,List.map_singleton,List.sum_singleton,
          List.length_append,List.length_singleton]
        omega
      · simp
    · dsimp only
      split
      · rw [List.length_append,List.length_singleton]
        omega
      · omega

/-- What is said of a run: the loop has done what its stream is meant to do, or there were so many
keys that a line got too long. -/
def RunFollowed (pcap : Pcap Program) (regcomp : List Char→Option Regex)
    (s₀ : UiState Program Regex) (n : ℕ) (r : Reading×List Item) :
    Except Stop (UiState Program Regex)→Prop
  | .error .abort => LongLine s₀.options n
  | .error (.fault _) => False
  | .ok s => Follows pcap regcomp s₀ s r

/-- All keys of a run are followed, unless a line gets too long. -/
theorem Follows.keys {r : Reading×List Item} (h : Follows pcap regcomp s₀ s r) (keys : List ℤ)
    {n : ℕ} (hn : ∀ prompt,typed prompt r+keys.length≤n) :
    RunFollowed pcap regcomp s₀ n (keys.foldl readKey r) (uiLoop junk pcap regcomp s keys) := by
  induction keys generalizing s r with
  | nil => exact h
  | cons keycode keys ih =>
    rw [uiLoop,List.foldl_cons]
    rcases h.key keycode with ⟨hno,prompt,hlong⟩|⟨s',calls,hok,h'⟩
    · rw [hno]
      have hp := hn prompt
      rw [List.length_cons] at hp
      exact ⟨prompt,hlong.trans (by omega)⟩
    · rw [hok]
      refine ih h' fun prompt => ?_
      have hp := hn prompt
      have hone := typed_readKey prompt r keycode
      rw [List.length_cons] at hp
      omega

/-- A loop that is ready has done nothing yet. -/
theorem Ready.follows (h : Ready pcap s) : Follows pcap regcomp s s (.commands,[]) where
  options := rfl
  texts := fun _ => .nil _
  installed := h.installed
  filter := .inl ⟨fun ⟨_,hm,_⟩ => List.not_mem_nil hm,rfl⟩
  short := h.short
  waits := by
    rw [h.mode]
    exact .commands

/-- A run does what its stream is meant to do, unless a line gets too long. -/
theorem Ready.run_cases (h : Ready pcap s₀) (keys : List ℤ) :
    (∃ s,uiLoop junk pcap regcomp s₀ keys=.ok s ∧ Follows pcap regcomp s₀ s (readKeys keys)) ∨
      uiLoop junk pcap regcomp s₀ keys=.error .abort ∧ LongLine s₀.options keys.length := by
  have htyped (prompt : Prompt) : typed prompt (.commands,[])+keys.length≤keys.length :=
    (Nat.zero_add _).le
  have hall : RunFollowed pcap regcomp s₀ keys.length (readKeys keys)
      (uiLoop junk pcap regcomp s₀ keys) := h.follows.keys keys htyped
  generalize uiLoop junk pcap regcomp s₀ keys=result at hall
  match result,hall with
  | .ok s,hs => exact .inl ⟨s,rfl,hs⟩
  | .error .abort,hlong => exact .inr ⟨rfl,hlong⟩
  | .error (.fault _),hno => exact hno.elim

/-- A run that comes to a state has followed all its keys. -/
theorem Ready.run (h : Ready pcap s₀) {keys : List ℤ}
    (hrun : uiLoop junk pcap regcomp s₀ keys=.ok s) : Follows pcap regcomp s₀ s (readKeys keys) := by
  have hcases := @Ready.run_cases _ _ junk pcap regcomp s₀ h keys
  rw [hrun] at hcases
  rcases hcases with ⟨s',hs,hf⟩|⟨hno,-⟩
  · obtain rfl := Except.ok.inj hs
    exact hf
  · cases hno

/-- The screen filter that was made before the start. -/
theorem uiStart_screenfilter {options : AllOptions} {installed : Program}
    (h : uiStart pcap options installed=.ok s) : s.options.screenfilter=options.screenfilter := by
  unfold uiStart at h
  split at h
  · cases h
  · rw [← Except.ok.inj h]

/-- The loop is ready when the filter of the options has been installed. -/
theorem uiStart_ready {options : AllOptions} {installed : Program}
    (h : uiStart pcap options installed=.ok s)
    (hf : ∀ text,options.filtercode=some text→text.length<2^31)
    (hs : ∀ text,options.screenfilter=some text→text.length<2^31) : Ready pcap s ∧ s.preg=none := by
  unfold uiStart at h
  rcases @setFilterCode_spec _ pcap options.filtercode installed with
    ⟨-,program,hset,hin⟩|⟨-,m,hset⟩
  · rw [hset] at h
    cases h
    refine ⟨⟨rfl,hin,?_⟩,rfl⟩
    intro prompt text ht
    cases prompt with
    | net => exact hf text ht
    | screen => exact hs text ht
  · rw [hset] at h
    cases h

/-- A `libpcap` that takes every filter. -/
def openPcap : Pcap (List Char) := ⟨.ok,fun _ => .ok ()⟩

/-- Memory that was cleared. -/
def clear : Buffer := fun _ => nul

/-- A loop that starts with a screen filter from the configuration. -/
def configured : UiState (List Char) (List Char) where
  options := {allDefaults ⟨none,fun _ => none,fun _ => none⟩ with
    screenfilter := some ['a'],showhelp := false,barInterval := 1,screenOffset := 0}
  preg := none
  installed := filterText none
  mode := .commands

/-- The configured screen is ready. -/
theorem configured_ready : Ready openPcap configured where
  mode := rfl
  installed := rfl
  short := by
    intro prompt text ht
    cases prompt with
    | net => cases ht
    | screen =>
      obtain rfl : ['a']=text := Option.some.inj ht
      norm_num

/-- For every stream of keys, unless a line gets too long, each text is what the lines at its prompt
make of it, every line being edited from the text then in force, and the net filter that is
installed is always the one of the text. -/
theorem filters_follow_lines (junk : Buffer) (regcomp : List Char→Option Regex)
    (h : Ready pcap s₀) (keys : List ℤ) :
    (∃ s,uiLoop junk pcap regcomp s₀ keys=.ok s ∧
        (∀ prompt,Edited (accept pcap regcomp prompt) (s₀.options.text prompt)
          (entriesOf prompt (readKeys keys).2) (s.options.text prompt)) ∧
        InForce pcap (s.options.text .net) s.installed) ∨
      uiLoop junk pcap regcomp s₀ keys=.error .abort ∧ LongLine s₀.options keys.length := by
  rcases h.run_cases keys with ⟨s,hs,hf⟩|hlong
  · exact .inl ⟨s,hs,hf.texts,hf.installed⟩
  · exact .inr hlong

/-- A screen filter is edited and entered. -/
theorem filters_follow_lines_entered :
    ∃ s,uiLoop clear openPcap some configured [key 'l',key 'b',13]=.ok s ∧
      (∀ prompt,Edited (accept openPcap some prompt) (configured.options.text prompt)
        (entriesOf prompt (readKeys [key 'l',key 'b',13]).2) (s.options.text prompt)) ∧
      InForce openPcap (s.options.text .net) s.installed := by
  have hok : (uiLoop clear openPcap some configured [key 'l',key 'b',13]).isOk=true := rfl
  rcases filters_follow_lines clear some configured_ready [key 'l',key 'b',13] with hs|⟨hno,-⟩
  · exact hs
  · rw [hno] at hok
    cases hok

/-- A program that has just started never matches against a filter without its program, after
any stream of keys, exactly if no screen filter was configured or a line has been entered for
one: the configured filter is not compiled. -/
theorem compiled_iff (junk : Buffer) (regcomp : List Char→Option Regex)
    (h : Ready pcap s₀) (hp : s₀.preg=none) (keys : List ℤ) :
    ∀ s,uiLoop junk pcap regcomp s₀ keys=.ok s→
      (Compiled s.filter ↔ s₀.options.screenfilter=none ∨ ScreenEntered (readKeys keys).2) := by
  intro s hs
  rcases (h.run hs).filter with ⟨hno,hsame⟩|⟨hyes,hc⟩
  · have hstart : Compiled s₀.filter ↔ s₀.options.screenfilter=none := by
      simp [Compiled,UiState.filter,hp]
    rw [hsame,hstart]
    exact ⟨.inl,fun hor => hor.resolve_right hno⟩
  · exact ⟨fun _ => .inr hyes,fun _ => hc⟩

/-- A configured screen filter has no program. -/
example : ∃ s,uiLoop clear openPcap some configured [key 'n']=.ok s ∧ ¬Compiled s.filter :=
  ⟨_,rfl,fun h => absurd (h rfl) Bool.false_ne_true⟩

end IftopColor.UiRun
