import IftopColor.SearchTree
import Mathlib.Data.List.DropRight
import Mathlib.Order.Defs.LinearOrder

/-!
# The configuration file

`read_config_file` reads a line into a fixed buffer, glues continuation lines to
it in place, cuts comments and blanks off and inserts key and value into a search
tree, where a key that was set on the command line keeps its value. Texts are
lists of characters; what `strlen` sees of a buffer ends at the first NUL.

Files are described from the other side: logical lines that are blank, a comment
or a directive, each written as one or more physical lines.
-/

namespace IftopColor.ConfigFile

open SearchTree

/-- `strcmp`. -/
def strcmp : List Char→List Char→Ordering
  | [],[] => .eq
  | [],_::_ => .lt
  | _::_,[] => .gt
  | a::as,b::bs => (compare a b).then (strcmp as bs)

/-- `stringmap` with text values. -/
abbrev StringMap := Tree (List Char) (List Char)

/-- `config_directives`. -/
def configDirectives : List (List Char) :=
  ["interface".toList,"dns-resolution".toList,"port-resolution".toList,"filter-code".toList,
    "show-bars".toList,"promiscuous".toList,"hide-source".toList,"hide-destination".toList,
    "use-bytes".toList,"sort".toList,"line-display".toList,"show-totals".toList,
    "log-scale".toList,"max-bandwidth".toList,"net-filter".toList,"net-filter6".toList,
    "link-local".toList,"port-display".toList,"show-processes".toList]

/-- `is_cfgdirective_valid`. -/
def isCfgdirectiveValid (directive : List Char) : Bool :=
  configDirectives.any fun d => strcmp directive d=.eq

/-- `config_init`. -/
def configInit : StringMap := .nil

/-- `config_get_string`. -/
def configGetString (config : StringMap) (directive : List Char) : Option (List Char) :=
  find strcmp directive config

/-- `config_set_string`. -/
def configSetString (config : StringMap) (directive str : List Char) : StringMap :=
  match find strcmp directive config with
  | some _ => replace strcmp directive str config
  | none => insert strcmp directive str config

/-- `MAX_CONFIG_LINE`. -/
def maxConfigLine : ℕ := 2048

/-- At most `n` characters of a file, up to and with a newline, and the rest. -/
def upToNewline : ℕ→List Char→List Char×List Char
  | 0,input => ([],input)
  | _+1,[] => ([],[])
  | n+1,c::cs =>
    if c= '\n' then ([c],cs)
    else
      let (line,rest) := upToNewline n cs
      (c::line,rest)

/-- `fgets` with room for `n` characters and the terminator among them: the text
as `strlen` sees it, and the rest of the file. -/
def fgets (n : ℕ) (input : List Char) : Option (List Char×List Char) :=
  if n=0 then none
  else if n=1 then some ([],input)
  else if input=[] then none
  else
    let (line,rest) := upToNewline (n-1) input
    some (line.takeWhile fun c => c≠ '\x00',rest)

/-- The loop that strips newlines from the end, which spares the first character. -/
def stripNewlines : List Char→List Char
  | [] => []
  | c::cs => c::cs.rdropWhile fun c => c= '\n'

/-- The loop that gets continuation lines over the final backslash. `none` when it
looks before the start of an empty buffer; `fuel` bounds the number of rounds. -/
def getContinuation : ℕ→List Char→List Char→Option (List Char×List Char)
  | 0,_,_ => none
  | fuel+1,line,input =>
    match line.getLast? with
    | none => none
    | some c =>
      if c= '\\' then
        match fgets (maxConfigLine-line.length) input with
        | none => some (line,input)
        | some (more,rest) => getContinuation fuel (stripNewlines (line.dropLast++more)) rest
      else some (line,input)

/-- A blank, as in `" \\t"`. -/
def isBlank (c : Char) : Bool := c= ' ' || c= '\t'

/-- Cut the blanks off the end, which spares the first character. -/
def trimEnd : List Char→List Char
  | [] => []
  | c::cs => c::cs.rdropWhile isBlank

/-- Key and value of a line, if it has both a colon and a key. -/
def splitLine (line : List Char) : Option (List Char×List Char) :=
  let line := line.takeWhile fun c => !(c= '#' || c= '\n')
  let key := (line.dropWhile isBlank).takeWhile fun c => !(isBlank c || c= ':')
  match line.dropWhile fun c => c≠ ':' with
  | [] => none
  | _::value => if key=[] then none else some (key,trimEnd (value.dropWhile isBlank))

/-- What a line does to the configuration: unknown directives get a warning. -/
def applyLine (line : List Char) (config : StringMap) : StringMap :=
  match splitLine line with
  | none => config
  | some (key,value) =>
    if isCfgdirectiveValid key then insert strcmp key value config else config

/-- The loop over the lines of a file; `fuel` bounds the number of rounds. -/
def readLines : ℕ→List Char→StringMap→Option StringMap
  | 0,_,_ => none
  | fuel+1,input,config =>
    match fgets maxConfigLine input with
    | none => some config
    | some (line,rest) =>
      match getContinuation (input.length+maxConfigLine) (stripNewlines line) rest with
      | none => none
      | some (line,rest) => readLines fuel rest (applyLine line config)

/-- `read_config_file` on the content of a file, `none` when it cannot be opened:
its result and the configuration; no result stands for an access out of bounds. -/
def readConfigFile (file : Option (List Char)) (config : StringMap) : Option (Bool×StringMap) :=
  match file with
  | none => some (false,config)
  | some content => (readLines (content.length+1) content config).map fun config => (true,config)

/-- A directive with all its blanks and an optional comment. -/
structure Directive where
  /-- Blanks before the key. -/
  lead : List Char
  /-- Key. -/
  key : List Char
  /-- Blanks between key and colon. -/
  gap : List Char
  /-- Blanks between colon and value. -/
  pad : List Char
  /-- Value. -/
  value : List Char
  /-- Blanks after the value. -/
  trail : List Char
  /-- Text after a hash sign. -/
  comment : Option (List Char)
  /-- The key is known. -/
  key_mem : key∈configDirectives
  /-- The value has no hash sign. -/
  value_hash : '#'∉value
  /-- The value does not start with a blank. -/
  value_head : ∀ c∈value.head?,isBlank c=false
  /-- The value does not end with a blank. -/
  value_last : ∀ c∈value.getLast?,isBlank c=false
  /-- Blanks are blank. -/
  lead_blank : ∀ c∈lead,isBlank c
  /-- Blanks are blank. -/
  gap_blank : ∀ c∈gap,isBlank c
  /-- Blanks are blank. -/
  pad_blank : ∀ c∈pad,isBlank c
  /-- Blanks are blank. -/
  trail_blank : ∀ c∈trail,isBlank c

/-- A comment with its hash sign, or nothing. -/
def commentText : Option (List Char)→List Char
  | none => []
  | some text => '#'::text

/-- The text of a directive. -/
def Directive.text (d : Directive) : List Char :=
  d.lead++(d.key++(d.gap++ ':'::(d.pad++(d.value++(d.trail++commentText d.comment)))))

/-- A logical line: blanks, a comment behind blanks, or a directive. -/
inductive ConfigLine where
  | blank (lead : List Char) (h : ∀ c∈lead,isBlank c)
  | comment (lead : List Char) (h : ∀ c∈lead,isBlank c) (text : List Char)
  | directive (d : Directive)

/-- The text of a logical line. -/
def ConfigLine.text : ConfigLine→List Char
  | .blank lead _ => lead
  | .comment lead _ text => lead++ '#'::text
  | .directive d => d.text

/-- Key and value of a logical line. -/
def ConfigLine.entry : ConfigLine→Option (List Char×List Char)
  | .directive d => some (d.key,d.value)
  | _ => none

/-- A character of a line: neither NUL nor newline. -/
def isText (c : Char) : Bool := c≠ '\x00' && c≠ '\n'

/-- A logical line and how it is cut into physical lines. -/
structure LogicalLine where
  /-- The line. -/
  line : ConfigLine
  /-- Pieces of the line but the last one, each of which is continued. -/
  continued : List (List Char)
  /-- The last piece of the line. -/
  last : List Char
  /-- The pieces make up the line. -/
  joined : continued.flatten++last=line.text
  /-- The line is text. -/
  clean : ∀ c∈line.text,isText c
  /-- The line does not end in a backslash itself. -/
  ending : line.text.getLast?≠some '\\'
  /-- The line is not too long. -/
  fits : line.text.length≤2000

/-- Physical lines, all but the last one ended by a backslash and a newline. -/
def physical (continued : List (List Char)) (last : List Char) : List Char :=
  (continued.flatMap fun piece => piece++['\\','\n'])++last

/-- A file with the given logical lines. The last newline may be missing if the
last physical line is not empty. -/
inductive FileOf : List LogicalLine→List Char→Prop where
  | nil : FileOf [] []
  | unterminated (l : LogicalLine) (h : l.last≠[]) : FileOf [l] (physical l.continued l.last)
  | cons (l : LogicalLine) {ls : List LogicalLine} {content : List Char} (h : FileOf ls content) :
    FileOf (l::ls) (physical l.continued l.last++ '\n'::content)

/-- Keys and values of a file in order. -/
def entriesOf (ls : List LogicalLine) : List (List Char×List Char) :=
  ls.filterMap fun l => l.line.entry

variable {p q rest : List Char} {n : ℕ}

/-- No character of a text is a newline. -/
theorem ne_newline (hp : ∀ c∈p,isText c) : ∀ c∈p,c≠ '\n' := by
  intro c hc
  have := hp c hc
  simp only [isText,Bool.and_eq_true,decide_eq_true_eq] at this
  exact this.2

/-- A line that fits is read with its newline. -/
theorem upToNewline_line (hp : ∀ c∈p,c≠ '\n') (h : p.length<n) :
    upToNewline n (p++ '\n'::rest)=(p++['\n'],rest) := by
  induction p generalizing n with
  | nil =>
    obtain ⟨n,rfl⟩ := Nat.exists_eq_succ_of_ne_zero (Nat.ne_of_gt h)
    simp [upToNewline]
  | cons c cs ih =>
    obtain ⟨n,rfl⟩ := Nat.exists_eq_succ_of_ne_zero (Nat.ne_of_gt (Nat.zero_lt_of_lt h))
    have hi := ih (fun c hc => hp c (List.mem_cons_of_mem _ hc)) (by simpa using h)
    rw [List.cons_append,upToNewline,if_neg (hp c (List.mem_cons_self ..)),hi]
    rfl

/-- A last line without newline is read to its end. -/
theorem upToNewline_end (hp : ∀ c∈p,c≠ '\n') (h : p.length≤n) : upToNewline n p=(p,[]) := by
  induction p generalizing n with
  | nil => cases n <;> rfl
  | cons c cs ih =>
    obtain ⟨n,rfl⟩ := Nat.exists_eq_succ_of_ne_zero (Nat.ne_of_gt (Nat.zero_lt_of_lt h))
    have hi := ih (fun c hc => hp c (List.mem_cons_of_mem _ hc)) (by simpa using h)
    rw [upToNewline,if_neg (hp c (List.mem_cons_self ..)),hi]

/-- `strlen` sees all of a text and goes on into what stands behind it. -/
theorem takeWhile_text (hp : ∀ c∈p,isText c) (q : List Char) :
    (p++q).takeWhile (fun c => c≠ '\x00')=p++q.takeWhile fun c => c≠ '\x00' := by
  apply List.takeWhile_append_of_pos
  intro c hc
  have := hp c hc
  simp only [isText,Bool.and_eq_true] at this
  exact this.1

/-- `fgets` reads a line that fits together with its newline. -/
theorem fgets_line (rest : List Char) (hp : ∀ c∈p,isText c) (h : p.length+1<n) :
    fgets n (p++ '\n'::rest)=some (p++['\n'],rest) := by
  unfold fgets
  rw [if_neg (by omega),if_neg (by omega),if_neg (by simp),
    upToNewline_line (ne_newline hp) (by omega)]
  dsimp only
  rw [takeWhile_text hp]
  rfl

/-- `fgets` on a last line without newline. -/
theorem fgets_end (hp : ∀ c∈p,isText c) (hne : p≠[]) (h : p.length<n) :
    fgets n p=some (p,[]) := by
  have hlen := List.length_pos_of_ne_nil hne
  have htake := takeWhile_text hp []
  rw [List.takeWhile_nil,List.append_nil] at htake
  unfold fgets
  rw [if_neg (by omega),if_neg (by omega),if_neg hne,upToNewline_end (ne_newline hp) (by omega)]
  dsimp only
  rw [htake]

/-- The buffer for a text: the newline of an empty line stays. -/
def settled (text : List Char) : List Char := if text=[] then ['\n'] else text

/-- A text does not end in a newline, so stripping leaves it. -/
theorem rdropWhile_text (hp : ∀ c∈p,isText c) : p.rdropWhile (fun c => c= '\n')=p := by
  rw [List.rdropWhile_eq_self_iff]
  intro hne
  simpa using ne_newline hp _ (List.getLast_mem hne)

/-- Stripping leaves a text without its newline. -/
theorem stripNewlines_line (hp : ∀ c∈p,isText c) : stripNewlines (p++['\n'])=settled p := by
  cases p with
  | nil => rfl
  | cons c cs =>
    have hcs := rdropWhile_text fun x hx => hp x (List.mem_cons_of_mem c hx)
    rw [List.cons_append,stripNewlines,List.rdropWhile_concat_pos _ _ _ (by simp),hcs]
    rfl

/-- Stripping leaves a text without newline alone. -/
theorem stripNewlines_text (hp : ∀ c∈p,isText c) : stripNewlines p=p := by
  cases p with
  | nil => rfl
  | cons c cs =>
    have hcs := rdropWhile_text fun x hx => hp x (List.mem_cons_of_mem c hx)
    rw [stripNewlines,hcs]

/-- What follows the last piece of a logical line: a newline and the rest of the
file, or the end of the file if the piece is not empty. -/
def Ends (last e rest : List Char) : Prop := e= '\n'::rest ∨ (last≠[] ∧ e=[] ∧ rest=[])

/-- A text whose characters are neither NUL nor newline. -/
abbrev Text (p : List Char) : Prop := ∀ c∈p,isText c

variable {done last e : List Char}

/-- The last piece is read and settles the buffer. -/
theorem fgets_last (hd : Text done) (hl : Text last) (he : Ends last e rest)
    (h : last.length+1<n) :
    ∃ more,fgets n (last++e)=some (more,rest) ∧
      stripNewlines (done++more)=settled (done++last) := by
  have htext : Text (done++last) := List.forall_mem_append.mpr ⟨hd,hl⟩
  rcases he with rfl|⟨hne,rfl,rfl⟩
  · refine ⟨_,fgets_line _ hl h,?_⟩
    rw [←List.append_assoc,stripNewlines_line htext]
  · refine ⟨last,by rw [List.append_nil]; exact fgets_end hl hne (by omega),?_⟩
    rw [stripNewlines_text htext,settled,if_neg (by simp [hne])]

/-- A continued piece is read with its backslash. -/
theorem fgets_continued (rest : List Char) (hd : Text done) (hp : Text p) (h : p.length+2<n) :
    ∃ more,fgets n (p++['\\','\n']++rest)=some (more,rest) ∧
      stripNewlines (done++more)=done++p++['\\'] := by
  have hback : Text (p++['\\']) := List.forall_mem_append.mpr ⟨hp,by simp [isText]⟩
  have hline := fgets_line rest hback (n:=n) (by simpa using h)
  refine ⟨p++['\\']++['\n'],by simpa using hline,?_⟩
  rw [←List.append_assoc,stripNewlines_line (List.forall_mem_append.mpr ⟨hd,hback⟩),settled,
    if_neg (by simp),List.append_assoc]

/-- A buffer that does not end in a backslash gets no continuation line. -/
theorem getContinuation_settled {text : List Char} (h : text.getLast?≠some '\\') (fuel : ℕ) :
    getContinuation (fuel+1) (settled text) rest=some (settled text,rest) := by
  unfold settled
  split
  · simp [getContinuation]
  · rename_i hne
    rw [getContinuation,List.getLast?_eq_some_getLast hne]
    rw [List.getLast?_eq_some_getLast hne] at h
    dsimp only
    rw [if_neg (fun hc => h (by rw [hc]))]

/-- From a buffer that ends in a backslash, the loop collects the pieces that follow. -/
theorem getContinuation_pieces {continued : List (List Char)} {fuel : ℕ} (hd : Text done)
    (hc : ∀ piece∈continued,Text piece) (hl : Text last) (he : Ends last e rest)
    (hend : (done++(continued.flatten++last)).getLast?≠some '\\')
    (hfit : (done++(continued.flatten++last)).length≤2000) (hfuel : continued.length+1<fuel) :
    getContinuation fuel (done++['\\']) (physical continued last++e)=
      some (settled (done++(continued.flatten++last)),rest) := by
  induction continued generalizing done fuel with
  | nil =>
    obtain ⟨fuel,rfl⟩ : ∃ k,fuel=k+2 := ⟨fuel-2,by simp at hfuel; omega⟩
    have hroom : last.length+1 < maxConfigLine-(done++['\\']).length := by
      simp [maxConfigLine] at hfit ⊢
      omega
    obtain ⟨more,hf,hs⟩ := fgets_last hd hl he hroom
    rw [getContinuation,List.getLast?_concat]
    dsimp only
    rw [if_pos rfl,physical,List.flatMap_nil,List.nil_append,hf]
    dsimp only
    rw [List.dropLast_concat,hs]
    exact getContinuation_settled hend fuel
  | cons piece continued ih =>
    obtain ⟨fuel,rfl⟩ : ∃ k,fuel=k+1 := ⟨fuel-1,by simp at hfuel; omega⟩
    have hp := hc piece (List.mem_cons_self ..)
    have hroom : piece.length+2 < maxConfigLine-(done++['\\']).length := by
      simp [maxConfigLine] at hfit ⊢
      omega
    obtain ⟨more,hf,hs⟩ := fgets_continued (physical continued last++e) hd hp hroom
    have hinput : physical (piece::continued) last++e=
        piece++['\\','\n']++(physical continued last++e) := by
      simp [physical]
    have hdone : done++((piece::continued).flatten++last)=
        done++piece++(continued.flatten++last) := by
      simp
    rw [getContinuation,List.getLast?_concat]
    dsimp only
    rw [if_pos rfl,hinput,hf]
    dsimp only
    rw [List.dropLast_concat,hs,hdone]
    rw [hdone] at hend hfit
    exact ih (List.forall_mem_append.mpr ⟨hd,hp⟩)
      (fun q hq => hc q (List.mem_cons_of_mem _ hq)) hend hfit (by simpa using hfuel)

/-- A logical line is collected in the buffer, however it is cut. -/
theorem fgets_logical (l : LogicalLine) (he : Ends l.last e rest) :
    ∃ line more,fgets maxConfigLine (physical l.continued l.last++e)=some (line,more) ∧
      ∀ fuel,l.continued.length+1<fuel→
        getContinuation fuel (stripNewlines line) more=some (settled l.line.text,rest) := by
  obtain ⟨line,continued,last,joined,clean,ending,fits⟩ := l
  dsimp only at he ⊢
  rw [←joined] at clean ending fits ⊢
  obtain ⟨hc,hl⟩ := List.forall_mem_append.mp clean
  have hpieces : ∀ piece∈continued,Text piece :=
    fun piece hp c hm => hc c (List.mem_flatten.mpr ⟨piece,hp,hm⟩)
  have hnil : Text [] := fun _ hm => absurd hm List.not_mem_nil
  cases continued with
  | nil =>
    have hroom : last.length+1 < maxConfigLine := by
      simp [maxConfigLine] at fits ⊢
      omega
    obtain ⟨more,hf,hs⟩ := fgets_last hnil hl he hroom
    refine ⟨more,rest,hf,fun fuel hfuel => ?_⟩
    obtain ⟨fuel,rfl⟩ : ∃ k,fuel=k+1 := ⟨fuel-1,by omega⟩
    rw [List.nil_append] at hs
    rw [hs]
    exact getContinuation_settled ending fuel
  | cons piece continued =>
    have hp := hpieces piece (List.mem_cons_self ..)
    have hroom : piece.length+2 < maxConfigLine := by
      simp [maxConfigLine] at fits ⊢
      omega
    obtain ⟨more,hf,hs⟩ := fgets_continued (physical continued last++e) hnil hp hroom
    have hinput : physical (piece::continued) last++e=
        piece++['\\','\n']++(physical continued last++e) := by
      simp [physical]
    have htext : (piece::continued).flatten++last=piece++(continued.flatten++last) := by simp
    rw [htext] at ending fits ⊢
    refine ⟨more,physical continued last++e,by rw [hinput,hf],fun fuel hfuel => ?_⟩
    rw [List.nil_append,List.nil_append] at hs
    rw [hs]
    have hfuel' : continued.length+1<fuel := Nat.lt_of_succ_lt hfuel
    exact getContinuation_pieces hp (fun q hq => hpieces q (List.mem_cons_of_mem _ hq)) hl he
      ending fits hfuel'

/-- A text without blank, colon, hash sign or newline, as keys are. -/
abbrev KeyText (key : List Char) : Prop :=
  key≠[] ∧ ∀ c∈key,isBlank c=false ∧ c≠ ':' ∧ c≠ '#' ∧ c≠ '\n'

/-- Directives have no character that ends a key or a line. -/
theorem configDirectives_clean : ∀ key∈configDirectives,KeyText key := by
  have hall : (configDirectives.all fun key => !key.isEmpty &&
      key.all fun c => !isBlank c && !(c== ':' || c== '#' || c== '\n'))=true := by decide
  intro key hk
  simpa [and_assoc] using List.all_eq_true.mp hall key hk

/-- A blank is neither colon, hash sign nor newline. -/
theorem isBlank_ne {c : Char} (h : isBlank c=true) : c≠ ':' ∧ c≠ '#' ∧ c≠ '\n' := by
  simp only [isBlank,Bool.or_eq_true,decide_eq_true_eq] at h
  rcases h with rfl|rfl <;> decide

/-- `strcmp` says that texts are equal when they are, and only then. -/
theorem strcmp_eq_iff (a b : List Char) : strcmp a b=.eq ↔ a=b := by
  induction a generalizing b with
  | nil => cases b <;> simp [strcmp]
  | cons x xs ih =>
    cases b with
    | nil => simp [strcmp]
    | cons y ys => simp [strcmp,Ordering.then_eq_eq,ih]

/-- A directive is valid if it is one of the table of directives. -/
theorem isCfgdirectiveValid_iff (d : List Char) :
    isCfgdirectiveValid d=true ↔ d∈configDirectives := by
  simp [isCfgdirectiveValid,strcmp_eq_iff]

/-- A line without a colon before the comment has no key. -/
theorem splitLine_none {line : List Char}
    (h : ∀ c∈line.takeWhile fun c => !(c= '#' || c= '\n'),c≠ ':') : splitLine line=none := by
  have hdrop : (line.takeWhile fun c => !(c= '#' || c= '\n')).dropWhile (fun c => c≠ ':')=[] := by
    rw [List.dropWhile_eq_nil_iff]
    simpa using h
  unfold splitLine
  dsimp only
  rw [hdrop]

/-- Trailing blanks are cut off a text that does not end with one. -/
theorem trimEnd_append {value trail : List Char} (hlast : ∀ c∈value.getLast?,isBlank c=false)
    (ht : ∀ c∈trail,isBlank c) (hne : value≠[]) : trimEnd (value++trail)=value := by
  have htrail (xs : List Char) : (xs++trail).rdropWhile isBlank=xs.rdropWhile isBlank := by
    rw [List.rdropWhile,List.reverse_append,
      List.dropWhile_append_of_pos (fun c hc => ht c (List.mem_reverse.mp hc)),←List.rdropWhile]
  obtain ⟨c,cs,rfl⟩ := List.exists_cons_of_ne_nil hne
  have hcs : cs.rdropWhile isBlank=cs := by
    rw [List.rdropWhile_eq_self_iff]
    intro hne'
    have := hlast (cs.getLast hne')
      (by simp [List.getLast?_cons,List.getLast?_eq_some_getLast hne'])
    simp [this]
  rw [List.cons_append,trimEnd,htrail,hcs]

/-- The value is what is left between its blanks. -/
theorem trim_value {pad value trail : List Char} (hp : ∀ c∈pad,isBlank c)
    (ht : ∀ c∈trail,isBlank c) (hhead : ∀ c∈value.head?,isBlank c=false)
    (hlast : ∀ c∈value.getLast?,isBlank c=false) :
    trimEnd ((pad++(value++trail)).dropWhile isBlank)=value := by
  rw [List.dropWhile_append_of_pos hp]
  cases value with
  | nil =>
    rw [List.nil_append,List.dropWhile_eq_nil_iff.mpr ht]
    rfl
  | cons c cs =>
    have hc : isBlank c=false := hhead c rfl
    have hdrop : (c::cs++trail).dropWhile isBlank=c::cs++trail := by simp [hc]
    rw [hdrop,trimEnd_append hlast ht (List.cons_ne_nil c cs)]

/-- A comment behind a line is cut off, and nothing else is. -/
theorem cut_comment {line : List Char} (h : ∀ c∈line,c≠ '#' ∧ c≠ '\n')
    (comment : Option (List Char)) :
    (line++commentText comment).takeWhile (fun c => !(c= '#' || c= '\n'))=line := by
  rw [List.takeWhile_append_of_pos (by simpa using h)]
  cases comment <;> simp [commentText]

/-- The key of a line ends at a blank or the colon. -/
theorem line_key {lead key gap : List Char} (hk : KeyText key) (hl : ∀ c∈lead,isBlank c)
    (hg : ∀ c∈gap,isBlank c) (rest : List Char) :
    ((lead++(key++(gap++ ':'::rest))).dropWhile isBlank).takeWhile
      (fun c => !(isBlank c || c= ':'))=key := by
  obtain ⟨hkne,hkey⟩ := hk
  obtain ⟨c,cs,rfl⟩ := List.exists_cons_of_ne_nil hkne
  have hc : isBlank c=false := (hkey c (List.mem_cons_self ..)).1
  have hdrop : (c::cs++(gap++ ':'::rest)).dropWhile isBlank=c::cs++(gap++ ':'::rest) := by
    simp [hc]
  rw [List.dropWhile_append_of_pos hl,hdrop,List.takeWhile_append_of_pos (fun x hx => by
    simp [(hkey x hx).1,(hkey x hx).2.1])]
  cases gap with
  | nil => simp
  | cons g gs => simp [hg g (List.mem_cons_self ..)]

/-- The first colon of a line is the one after its key. -/
theorem line_colon {lead key gap : List Char} (hk : KeyText key) (hl : ∀ c∈lead,isBlank c)
    (hg : ∀ c∈gap,isBlank c) (rest : List Char) :
    (lead++(key++(gap++ ':'::rest))).dropWhile (fun c => c≠ ':')= ':'::rest := by
  have hcolon : ∀ c∈lead++(key++gap),decide (c≠ ':')=true := by
    intro c hc
    simp only [List.mem_append] at hc
    rcases hc with hc|hc|hc
    · simpa using (isBlank_ne (hl c hc)).1
    · simpa using (hk.2 c hc).2.1
    · simpa using (isBlank_ne (hg c hc)).1
  have hassoc : lead++(key++(gap++ ':'::rest))=lead++(key++gap)++ ':'::rest := by simp
  rw [hassoc,List.dropWhile_append_of_pos hcolon]
  simp

/-- Key and value of a line are found between their blanks. -/
theorem splitLine_parts {lead key gap pad value trail : List Char} (comment : Option (List Char))
    (hk : KeyText key) (hvalue : ∀ c∈value,c≠ '#' ∧ c≠ '\n')
    (hhead : ∀ c∈value.head?,isBlank c=false) (hlast : ∀ c∈value.getLast?,isBlank c=false)
    (hl : ∀ c∈lead,isBlank c) (hg : ∀ c∈gap,isBlank c) (hp : ∀ c∈pad,isBlank c)
    (ht : ∀ c∈trail,isBlank c) :
    splitLine (lead++(key++(gap++ ':'::(pad++(value++trail))))++commentText comment)=
      some (key,value) := by
  have hclean : ∀ c∈lead++(key++(gap++ ':'::(pad++(value++trail)))),c≠ '#' ∧ c≠ '\n' := by
    intro c hc
    simp only [List.mem_append,List.mem_cons] at hc
    rcases hc with hc|hc|hc|rfl|hc|hc|hc
    · exact (isBlank_ne (hl c hc)).2
    · exact (hk.2 c hc).2.2
    · exact (isBlank_ne (hg c hc)).2
    · decide
    · exact (isBlank_ne (hp c hc)).2
    · exact hvalue c hc
    · exact (isBlank_ne (ht c hc)).2
  unfold splitLine
  dsimp only
  rw [cut_comment hclean,line_colon hk hl hg,line_key hk hl hg]
  dsimp only
  rw [if_neg hk.1,trim_value hp ht hhead hlast]

/-- Key and value of a directive are found. -/
theorem splitLine_directive (d : Directive) (htext : Text d.text) :
    splitLine d.text=some (d.key,d.value) := by
  have hcut : d.text=
      d.lead++(d.key++(d.gap++ ':'::(d.pad++(d.value++d.trail))))++commentText d.comment := by
    simp [Directive.text]
  have hnl := ne_newline htext
  simp only [Directive.text,List.mem_append,List.mem_cons] at hnl
  rw [hcut]
  exact splitLine_parts d.comment (configDirectives_clean d.key d.key_mem)
    (fun c hc => ⟨fun h => d.value_hash (h ▸ hc),hnl c (by simp [hc])⟩) d.value_head d.value_last
    d.lead_blank d.gap_blank d.pad_blank d.trail_blank

/-- What a key and a value do to the configuration. -/
def addEntry (config : StringMap) (entry : List Char×List Char) : StringMap :=
  insert strcmp entry.1 entry.2 config

/-- A collected line does what it says. -/
theorem applyLine_settled (l : LogicalLine) (config : StringMap) :
    applyLine (settled l.line.text) config=l.line.entry.toList.foldl addEntry config := by
  have hclean := l.clean
  unfold applyLine
  cases hline : l.line with
  | blank lead h =>
    have hnone : splitLine (settled lead)=none := by
      apply splitLine_none
      intro c hc
      by_cases hl : lead=[]
      · simp [settled,hl] at hc
      · rw [settled,if_neg hl] at hc
        exact (isBlank_ne (h c ((List.takeWhile_sublist _).subset hc))).1
    rw [ConfigLine.text,hnone]
    rfl
  | comment lead h text =>
    have hcut : (lead++ '#'::text).takeWhile (fun c => !(c= '#' || c= '\n'))=lead :=
      cut_comment (fun c hc => (isBlank_ne (h c hc)).2) (some text)
    have hnone : splitLine (settled (lead++ '#'::text))=none := by
      apply splitLine_none
      intro c hc
      rw [settled,if_neg (by simp),hcut] at hc
      exact (isBlank_ne (h c hc)).1
    rw [ConfigLine.text,hnone]
    rfl
  | directive d =>
    rw [hline] at hclean
    have hne : d.text≠[] := by simp [Directive.text]
    rw [ConfigLine.text,settled,if_neg hne,splitLine_directive d hclean]
    dsimp only
    rw [if_pos ((isCfgdirectiveValid_iff d.key).mpr d.key_mem)]
    rfl

/-- A physical line takes at least two characters. -/
theorem length_le_physical (continued : List (List Char)) (last : List Char) :
    2*continued.length≤(physical continued last).length := by
  induction continued with
  | nil => simp
  | cons piece continued ih =>
    have hlen : (physical (piece::continued) last).length=
        piece.length+2+(physical continued last).length := by
      simp [physical]
      omega
    rw [hlen,List.length_cons]
    omega

/-- The entry of a line comes before those of the lines that follow. -/
theorem entriesOf_cons (l : LogicalLine) (ls : List LogicalLine) :
    entriesOf (l::ls)=l.line.entry.toList++entriesOf ls := by
  unfold entriesOf
  rw [List.filterMap_cons]
  cases l.line.entry <;> rfl

/-- The loop over a file inserts its entries in order. -/
theorem readLines_file {ls : List LogicalLine} {content : List Char} (h : FileOf ls content) :
    ∀ fuel config,content.length<fuel→
      readLines fuel content config=some ((entriesOf ls).foldl addEntry config) := by
  -- one logical line, and then the rest of the file
  have hround (l : LogicalLine) {e rest : List Char} (he : Ends l.last e rest) (fuel : ℕ)
      (config : StringMap) : readLines (fuel+1) (physical l.continued l.last++e) config=
        readLines fuel rest (l.line.entry.toList.foldl addEntry config) := by
    obtain ⟨line,more,hf,hc⟩ := fgets_logical l he
    have hfuel : l.continued.length+1<
        (physical l.continued l.last++e).length+maxConfigLine := by
      have := length_le_physical l.continued l.last
      rw [List.length_append,maxConfigLine]
      omega
    rw [readLines,hf]
    dsimp only
    rw [hc _ hfuel]
    dsimp only
    rw [applyLine_settled]
  induction h with
  | nil =>
    intro fuel config hfuel
    obtain ⟨fuel,rfl⟩ : ∃ k,fuel=k+1 := ⟨fuel-1,by omega⟩
    rfl
  | unterminated l hne =>
    intro fuel config hfuel
    have hpos : 0<(physical l.continued l.last).length := by
      have := List.length_pos_of_ne_nil hne
      simp only [physical,List.length_append]
      omega
    obtain ⟨fuel,rfl⟩ : ∃ k,fuel=k+2 := ⟨fuel-2,by omega⟩
    have hr := hround l (.inr ⟨hne,rfl,rfl⟩) (fuel+1) config
    rw [List.append_nil] at hr
    rw [hr,entriesOf_cons,List.foldl_append]
    rfl
  | cons l h ih =>
    intro fuel config hfuel
    rw [List.length_append,List.length_cons] at hfuel
    obtain ⟨fuel,rfl⟩ : ∃ k,fuel=k+1 := ⟨fuel-1,by omega⟩
    rw [hround l (.inl rfl) fuel config,ih fuel _ (by omega),entriesOf_cons,List.foldl_append]

/-- A file of one line, with or without its newline. -/
theorem readConfigFile_line {line e : List Char} (hl : Text line) (hne : line≠[])
    (hend : line.getLast?≠some '\\') (hfit : line.length≤2000) (he : e=[] ∨ e=['\n'])
    (config : StringMap) :
    readConfigFile (some (line++e)) config=some (true,applyLine line config) := by
  have hends : Ends line e [] := by
    rcases he with rfl|rfl
    · exact .inr ⟨hne,rfl,rfl⟩
    · exact .inl rfl
  have hnil : Text [] := List.forall_mem_nil _
  have hroom : line.length+1 < maxConfigLine := by
    rw [maxConfigLine]
    omega
  obtain ⟨more,hf,hs⟩ := fgets_last hnil hl hends hroom
  rw [List.nil_append,List.nil_append] at hs
  obtain ⟨fuel,hfuel⟩ : ∃ k,(line++e).length=k+1 := by
    have := List.length_pos_of_ne_nil hne
    exact ⟨(line++e).length-1,by rw [List.length_append]; omega⟩
  have hsettled : settled line=line := by rw [settled,if_neg hne]
  have hc : getContinuation ((line++e).length+maxConfigLine) (settled line) []=
      some (settled line,[]) :=
    getContinuation_settled hend ((line++e).length+(maxConfigLine-1))
  have hread : readLines ((line++e).length+1) (line++e) config=some (applyLine line config) := by
    rw [readLines,hf]
    dsimp only
    rw [hs,hc,hsettled,hfuel]
    rfl
  rw [readConfigFile,hread]
  rfl

/-- The first entry of a key counts, unless the key is there already. -/
theorem find_addEntries (d : List Char) (entries : List (List Char×List Char))
    (config : StringMap) :
    configGetString (entries.foldl addEntry config) d=
      (configGetString config d).or (entries.lookup d) :=
  find_foldl_insert strcmp_eq_iff d entries config

/-- Setting a value replaces the one that was there. -/
theorem find_configSetString (config : StringMap) (directive str d : List Char) :
    configGetString (configSetString config directive str) d=
      if d=directive then some str else configGetString config d := by
  unfold configGetString configSetString
  split
  · rename_i old hf
    by_cases hd : d=directive
    · subst hd
      rw [find_replace_self,hf,if_pos rfl]
      rfl
    · rw [find_replace_of_ne strcmp_eq_iff hd,if_neg hd]
  · rename_i hf
    by_cases hd : d=directive
    · subst hd
      rw [find_insert_self strcmp_eq_iff,hf,if_pos rfl]
      rfl
    · rw [find_insert_of_ne strcmp_eq_iff hd,if_neg hd]

/-- The configuration after a sequence of settings from the command line. -/
def commandLine (sets : List (List Char×List Char)) : StringMap :=
  sets.foldl (fun config set => configSetString config set.1 set.2) configInit

/-- The last setting of a directive counts. -/
theorem find_commandLine (sets : List (List Char×List Char)) (d : List Char) :
    configGetString (commandLine sets) d=sets.reverse.lookup d := by
  induction sets using List.reverseRecOn with
  | nil => rfl
  | append_singleton sets set ih =>
    have hstep : commandLine (sets++[set])=configSetString (commandLine sets) set.1 set.2 := by
      simp [commandLine]
    rw [hstep,find_configSetString,ih,List.reverse_concat]
    by_cases hd : d=set.1
    · subst hd
      rw [if_pos rfl]
      exact List.lookup_cons_self.symm
    · have hbeq : (d==set.1)=false := by simpa using hd
      rw [if_neg hd,List.lookup_cons,hbeq]

/-- After any settings a file is read to its end. -/
theorem readConfigFile_lines {ls : List LogicalLine} {content : List Char} (h : FileOf ls content)
    (sets : List (List Char×List Char)) :
    readConfigFile (some content) (commandLine sets)=
      some (true,(entriesOf ls).foldl addEntry (commandLine sets)) := by
  rw [readConfigFile,readLines_file h _ _ (Nat.lt_succ_self _)]
  rfl

/-- Settings count before lines, the last setting and the first line of a directive. -/
theorem find_settings (ls : List LogicalLine) (sets : List (List Char×List Char)) (d : List Char) :
    configGetString ((entriesOf ls).foldl addEntry (commandLine sets)) d=
      (sets.reverse.lookup d).or ((entriesOf ls).lookup d) := by
  rw [find_addEntries,find_commandLine]

/-- After any settings from the command line, a file is read to its end, and every
directive has its last value from the command line, or else its first value from
the file, or else none. -/
theorem config_precedence {ls : List LogicalLine} {content : List Char} (h : FileOf ls content)
    (sets : List (List Char×List Char)) :
    ∃ config,readConfigFile (some content) (commandLine sets)=some (true,config) ∧
      ∀ d,configGetString config d=(sets.reverse.lookup d).or ((entriesOf ls).lookup d) :=
  ⟨_,readConfigFile_lines h sets,find_settings ls sets⟩

/-- A comment line. -/
def commentLine : LogicalLine where
  line := .comment [' '] (List.all_eq_true.mp rfl) "defaults".toList
  continued := []
  last := " #defaults".toList
  joined := rfl
  clean := List.all_eq_true.mp rfl
  ending := by decide
  fits := by decide

/-- A directive with a colon and an empty piece in its value. -/
def filterLine : LogicalLine where
  line := .directive
    { lead := [],key := "net-filter6".toList,gap := [' '],pad := ['\t'],value := "fe80::/10".toList
      trail := [' '],comment := some "wide".toList
      key_mem := by decide
      value_hash := by decide
      value_head := fun c hc => by obtain rfl := Option.some.inj hc; rfl
      value_last := fun c hc => by obtain rfl := Option.some.inj hc; rfl
      lead_blank := List.all_eq_true.mp rfl
      gap_blank := List.all_eq_true.mp rfl
      pad_blank := List.all_eq_true.mp rfl
      trail_blank := List.all_eq_true.mp rfl }
  continued := ["net-filter6 :\tfe80".toList,[]]
  last := "::/10 #wide".toList
  joined := rfl
  clean := List.all_eq_true.mp rfl
  ending := by decide
  fits := by decide

/-- The two lines, the last one without a newline, after one setting. -/
theorem config_precedence_filter :
    ∃ config,readConfigFile (some " #defaults\nnet-filter6 :\tfe80\\\n\\\n::/10 #wide".toList)
        (commandLine [("sort".toList,"2s".toList)])=some (true,config) ∧
      ∀ d,configGetString config d=([("sort".toList,"2s".toList)].reverse.lookup d).or
        ((entriesOf [commentLine,filterLine]).lookup d) :=
  config_precedence (.cons commentLine (.unterminated filterLine (by decide))) _

end IftopColor.ConfigFile
