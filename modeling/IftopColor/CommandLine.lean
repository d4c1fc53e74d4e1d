import IftopColor.Getopt
import IftopColor.IntDirective

/-!
# The command line

`options_read_args` takes the options off the command line with `getopt`. Most of them set a
directive of the configuration; the others name the configuration file and choose the export. The
program ends at the first option that it cannot use and at words behind the options. What it
accepts are the ways to write options, and what it keeps of them is the last of each kind.
-/

namespace IftopColor.CommandLine

open Getopt ConfigFile IntDirective SearchTree

/-- `optstr` behind the sign that makes `getopt` stop at the first word that is no option. -/
def optstr : List Char := "i:f:nNF:G:lhpbBPm:c:o:t:Z".toList

/-- `options.export_mode`. -/
inductive ExportMode where
  /-- The screen is used. -/
  | none
  /-- `-o json`. -/
  | json
  /-- `-o csv`. -/
  | csv
  deriving DecidableEq

/-- What the command line sets. -/
structure Arguments where
  /-- `config`. -/
  config : StringMap
  /-- `options.config_file`. -/
  configFile : List Char
  /-- `options.config_file_specified`. -/
  configFileSpecified : Bool
  /-- `options.export_mode`. -/
  exportMode : ExportMode
  /-- `options.export_duration`. -/
  exportDuration : ℤ

/-- Why the program ends. -/
inductive Exit where
  /-- The usage was asked for. -/
  | help
  /-- `unknown export format`. -/
  | unknownFormat (optarg : Word)
  /-- `-t requires a positive number of seconds`. -/
  | duration
  /-- `unknown option`. -/
  | unknownOption (optopt : Char)
  /-- `option requires an argument`. -/
  | missingArgument (optopt : Char)
  /-- `found arguments following options`. -/
  | following
  deriving DecidableEq

/-- The exit status. -/
def Exit.status : Exit→ℕ
  | .help => 0
  | _ => 1

/-- The messages on the standard error, but for the usage. -/
def Exit.messages : Exit→List (List Char)
  | .help => []
  | .unknownFormat optarg =>
    ["iftop: unknown export format '".toList++optarg++"' (use 'json' or 'csv')".toList]
  | .duration => ["iftop: -t requires a positive number of seconds".toList]
  | .unknownOption optopt => ["iftop: unknown option -".toList++[optopt]]
  | .missingArgument optopt => ["iftop: option -".toList++optopt::" requires an argument".toList]
  | .following => ["iftop: found arguments following options".toList,
      "*** some options have changed names since v0.9 ***".toList]

/-- `config_set_string`. -/
def Arguments.set (a : Arguments) (directive str : List Char) : Arguments :=
  {a with config := configSetString a.config directive str}

/-- `atoi`. -/
def atoi (str : Word) : ℤ := toInt (strtol str).value

/-- The switch, for what `getopt` returns and for `optarg` and `optopt`. -/
def readOption (opt : Char) (optarg : Word) (optopt : Char) (a : Arguments) :
    Except Exit Arguments :=
  match opt with
  | 'h' => .error .help
  | 'n' => .ok (a.set "dns-resolution".toList "false".toList)
  | 'N' => .ok (a.set "port-resolution".toList "false".toList)
  | 'i' => .ok (a.set "interface".toList optarg)
  | 'f' => .ok (a.set "filter-code".toList optarg)
  | 'l' => .ok (a.set "link-local".toList "true".toList)
  | 'p' => .ok (a.set "promiscuous".toList "true".toList)
  | 'P' => .ok (a.set "port-display".toList "on".toList)
  | 'F' => .ok (a.set "net-filter".toList optarg)
  | 'G' => .ok (a.set "net-filter6".toList optarg)
  | 'm' => .ok (a.set "max-bandwidth".toList optarg)
  | 'b' => .ok (a.set "show-bars".toList "false".toList)
  | 'B' => .ok (a.set "use-bytes".toList "true".toList)
  | 'c' => .ok {a with configFile := optarg,configFileSpecified := true}
  | 'o' =>
    if strcmp optarg "json".toList=.eq then .ok {a with exportMode := .json}
    else if strcmp optarg "csv".toList=.eq then .ok {a with exportMode := .csv}
    else .error (.unknownFormat optarg)
  | 't' =>
    if atoi optarg≤0 then .error .duration else .ok {a with exportDuration := atoi optarg}
  | 'Z' => .ok (a.set "show-processes".toList "true".toList)
  | '?' => .error (.unknownOption optopt)
  | ':' => .error (.missingArgument optopt)
  | _ => .ok a

/-- A turn of the loop. -/
def readResult (r : Result) (a : Arguments) : Except Exit Arguments :=
  readOption (r.code optstr) r.optarg r.optopt a

/-- The loop, and the test behind it; `fuel` bounds the number of turns. -/
def readLoop : ℕ→Scan→Arguments→Except Exit Arguments
  | 0,_,a => .ok a
  | fuel+1,s,a =>
    match getopt optstr s with
    | .done [] => .ok a
    | .done (_::_) => .error .following
    | .found r s =>
      match readResult r a with
      | .error e => .error e
      | .ok a => readLoop fuel s a

/-- `options_read_args`, for the words behind the name of the program. -/
def optionsReadArgs (argv : List Word) (a : Arguments) : Except Exit Arguments :=
  readLoop (Scan.size ⟨[],argv⟩+1) ⟨[],argv⟩ a

/-- The directive that an option sets. -/
def settingOf (o : Opt) : Option (List Char×List Char) :=
  match o.1 with
  | 'n' => some ("dns-resolution".toList,"false".toList)
  | 'N' => some ("port-resolution".toList,"false".toList)
  | 'i' => some ("interface".toList,o.2.getD [])
  | 'f' => some ("filter-code".toList,o.2.getD [])
  | 'l' => some ("link-local".toList,"true".toList)
  | 'p' => some ("promiscuous".toList,"true".toList)
  | 'P' => some ("port-display".toList,"on".toList)
  | 'F' => some ("net-filter".toList,o.2.getD [])
  | 'G' => some ("net-filter6".toList,o.2.getD [])
  | 'm' => some ("max-bandwidth".toList,o.2.getD [])
  | 'b' => some ("show-bars".toList,"false".toList)
  | 'B' => some ("use-bytes".toList,"true".toList)
  | 'Z' => some ("show-processes".toList,"true".toList)
  | _ => none

/-- The argument of the last option of a kind. -/
def lastArgument (c : Char) (opts : List Opt) : Option Word :=
  (opts.filterMap fun o => if o.1=c then o.2 else none).getLast?

/-- The export that a format stands for. -/
def formatOf (optarg : Word) : ExportMode := if optarg="json".toList then .json else .csv

/-- What options make of the arguments: the last option of each kind counts. -/
def given (a : Arguments) (opts : List Opt) : Arguments where
  config := (opts.filterMap settingOf).foldl
    (fun config set => configSetString config set.1 set.2) a.config
  configFile := (lastArgument 'c' opts).getD a.configFile
  configFileSpecified := (lastArgument 'c' opts).isSome || a.configFileSpecified
  exportMode := ((lastArgument 'o' opts).map formatOf).getD a.exportMode
  exportDuration := ((lastArgument 't' opts).map atoi).getD a.exportDuration

/-- An option that the program goes on after. -/
structure Usable (o : Opt) : Prop where
  /-- The option is not the one for the usage. -/
  help : o.1≠ 'h'
  /-- The format is known. -/
  format : o.1= 'o' → o.2=some "json".toList ∨ o.2=some "csv".toList
  /-- The duration is positive. -/
  duration : o.1= 't' → ∀ arg,o.2=some arg → 0<atoi arg

variable {a a' : Arguments} {o : Opt} {opts opts' : List Opt} {c : Char}

/-- The last argument of a letter is that of the options behind, if these have one. -/
theorem lastArgument_append : lastArgument c (opts++opts')=
    (lastArgument c opts').or (lastArgument c opts) := by
  rw [lastArgument,List.filterMap_append,List.getLast?_append]
  rfl

/-- Options are applied one after the other, so more options are applied to what came before. -/
theorem given_append : given a (opts++opts')=given (given a opts) opts' := by
  simp only [given,lastArgument_append,List.filterMap_append,List.foldl_append]
  congr 1
  · cases lastArgument 'c' opts' <;> rfl
  · cases lastArgument 'c' opts' <;> rfl
  · cases lastArgument 'o' opts' <;> rfl
  · cases lastArgument 't' opts' <;> rfl

/-- The options of the program, with whether they take an argument. -/
theorem kind_optstr {c : Char} {b : Bool} (h : kind optstr c=some b) :
    (c,b)∈[('i',true),('f',true),('n',false),('N',false),('F',true),('G',true),('l',false),
      ('h',false),('p',false),('b',false),('B',false),('P',false),('m',true),('c',true),('o',true),
      ('t',true),('Z',false)] := by
  obtain ⟨hmem,hc⟩ := kind_mem h
  have hfilter : (c,b)∈(entries optstr).filter fun e => e.1≠ ':' :=
    List.mem_filter.mpr ⟨hmem,by simpa using hc⟩
  exact hfilter

/-- An option that can be used is taken in. -/
theorem readOption_usable (hk : kind optstr o.1=some o.2.isSome) (h : Usable o) (optopt : Char) :
    readOption o.1 (o.2.getD []) optopt a=.ok (given a [o]) := by
  obtain ⟨c,arg⟩ := o
  have hmem := kind_optstr hk
  have hh : c≠ 'h' := h.help
  by_cases ho : c= 'o'
  · subst ho
    rcases h.format rfl with harg|harg
    · cases harg
      rfl
    · cases harg
      rfl
  by_cases ht : c= 't'
  · subst ht
    cases arg with
    | none => exact absurd hk (by decide)
    | some n =>
      have hpos : ¬atoi n≤0 := not_le.mpr (h.duration rfl n rfl)
      exact if_neg hpos
  -- what is left sets a directive or names the file
  simp only [List.mem_cons,Prod.mk.injEq,List.not_mem_nil,or_false] at hmem
  rcases hmem with ⟨rfl,harg⟩|⟨rfl,harg⟩|⟨rfl,harg⟩|⟨rfl,harg⟩|⟨rfl,harg⟩|⟨rfl,harg⟩|⟨rfl,harg⟩|
    ⟨rfl,harg⟩|⟨rfl,harg⟩|⟨rfl,harg⟩|⟨rfl,harg⟩|⟨rfl,harg⟩|⟨rfl,harg⟩|⟨rfl,harg⟩|⟨rfl,harg⟩|
    ⟨rfl,harg⟩|⟨rfl,harg⟩
  all_goals cases arg
  all_goals first | exact absurd rfl hh | exact absurd rfl ho | exact absurd rfl ht | skip
  all_goals first | exact absurd harg (by decide) | rfl

/-- A result that does not end the program is an option that can be used. -/
theorem readResult_ok {r : Result} (hk : ∀ o,r=.option o → kind optstr o.1=some o.2.isSome)
    (h : readResult r a=.ok a') : ∃ o,r=.option o ∧ Usable o := by
  cases r with
  | unknown c => cases h
  | missing c => cases h
  | option o =>
    obtain ⟨c,arg⟩ := o
    refine ⟨(c,arg),rfl,?_,?_,?_⟩
    · rintro rfl
      cases h
    · rintro rfl
      cases arg with
      | none => exact absurd (hk _ rfl) (by decide)
      | some f =>
        by_cases hjson : strcmp f "json".toList=.eq
        · exact .inl (congrArg some ((strcmp_eq_iff _ _).mp hjson))
        by_cases hcsv : strcmp f "csv".toList=.eq
        · exact .inr (congrArg some ((strcmp_eq_iff _ _).mp hcsv))
        have herror : readResult (.option ('o',some f)) a=.error (.unknownFormat f) :=
          (if_neg hjson).trans (if_neg hcsv)
        rw [herror] at h
        cases h
    · rintro rfl n rfl
      by_cases hn : atoi n≤0
      · have herror : readResult (.option ('t',some n)) a=.error .duration := if_pos hn
        rw [herror] at h
        cases h
      · exact not_le.mp hn

/-- The switch for one result after the other. -/
def readResults : List Result→Arguments→Except Exit Arguments
  | [],a => .ok a
  | r::rs,a =>
    match readResult r a with
    | .error e => .error e
    | .ok a => readResults rs a

/-- The loop goes through what `getopt` finds. -/
theorem readLoop_scans {s : Scan} {rs : List Result} {words : List Word}
    (h : Scans optstr s rs words) : ∀ fuel a,rs.length<fuel →
      readLoop fuel s a=
        match readResults rs a with
        | .error e => .error e
        | .ok a => if words=[] then .ok a else .error .following := by
  induction h with
  | @done s words h =>
    intro fuel a hfuel
    cases fuel with
    | zero => exact absurd hfuel (Nat.not_lt_zero _)
    | succ fuel =>
      rw [readLoop,h]
      cases words <;> rfl
  | @found s s' r rs words h _ ih =>
    intro fuel a hfuel
    cases fuel with
    | zero => exact absurd hfuel (Nat.not_lt_zero _)
    | succ fuel =>
      rw [readLoop,h,readResults]
      dsimp only
      cases readResult r a with
      | error e => rfl
      | ok a => exact ih fuel a (Nat.lt_of_succ_lt_succ hfuel)

/-- A command line that is scanned gives the results of `getopt`, and no words may be left. -/
theorem optionsReadArgs_scans {argv : List Word} {rs : List Result} {words : List Word}
    (h : Scans optstr ⟨[],argv⟩ rs words) (a : Arguments) : optionsReadArgs argv a=
      match readResults rs a with
      | .error e => .error e
      | .ok a => if words=[] then .ok a else .error .following :=
  readLoop_scans h _ _ (Nat.lt_succ_of_le h.length_le)

/-- Options that can be used are read before the rest. -/
theorem readResults_append {rs : List Result} (hk : ∀ o∈opts,kind optstr o.1=some o.2.isSome)
    (h : ∀ o∈opts,Usable o) :
    readResults (opts.map Result.option++rs) a=readResults rs (given a opts) := by
  induction opts generalizing a with
  | nil => rfl
  | cons o opts ih =>
    have hone : readResult (.option o) a=.ok (given a [o]) :=
      readOption_usable (hk o List.mem_cons_self) (h o List.mem_cons_self) o.1
    have hrest := ih (a := given a [o]) (fun o ho => hk o (List.mem_cons_of_mem _ ho))
      fun o ho => h o (List.mem_cons_of_mem _ ho)
    rw [List.map_cons,List.cons_append,readResults,hone]
    dsimp only
    rw [hrest,← given_append]
    rfl

/-- Options that can be used are taken in. -/
theorem readResults_usable (hk : ∀ o∈opts,kind optstr o.1=some o.2.isSome)
    (h : ∀ o∈opts,Usable o) : readResults (opts.map Result.option) a=.ok (given a opts) := by
  have happend : readResults (opts.map Result.option++[]) a=readResults [] (given a opts) :=
    readResults_append hk h
  rw [List.append_nil] at happend
  exact happend

/-- Results that do not end the program are options that can be used. -/
theorem readResults_ok {rs : List Result}
    (hk : ∀ o,.option o∈rs → kind optstr o.1=some o.2.isSome) (h : readResults rs a=.ok a') :
    ∃ opts : List Opt,rs=opts.map Result.option ∧ ∀ o∈opts,Usable o := by
  induction rs generalizing a with
  | nil => exact ⟨[],rfl,fun _ ho => absurd ho List.not_mem_nil⟩
  | cons r rs ih =>
    rw [readResults] at h
    cases hr : readResult r a with
    | error e =>
      rw [hr] at h
      cases h
    | ok a₁ =>
      rw [hr] at h
      obtain ⟨o,ho,hu⟩ := readResult_ok (fun o ho => hk o (ho ▸ List.mem_cons_self)) hr
      obtain ⟨opts,hrs,hall⟩ := ih (fun o ho => hk o (List.mem_cons_of_mem _ ho)) h
      exact ⟨o::opts,by rw [ho,hrs,List.map_cons],List.forall_mem_cons.mpr ⟨hu,hall⟩⟩

/-- Words that are accepted write options that can be used. -/
theorem exists_written {argv : List Word} (h : optionsReadArgs argv a=.ok a') :
    ∃ opts,Written optstr opts ⟨[],argv⟩ ∧ (∀ o∈opts,Usable o) ∧ a'=given a opts := by
  obtain ⟨rs,words,hs⟩ := exists_scans optstr ⟨[],argv⟩
  rw [optionsReadArgs_scans hs] at h
  cases hr : readResults rs a with
  | error e =>
    rw [hr] at h
    cases h
  | ok a₁ =>
    rw [hr] at h
    obtain ⟨opts,hrs,hu⟩ := readResults_ok hs.kind hr
    have hk : ∀ o∈opts,kind optstr o.1=some o.2.isSome := fun o ho =>
      hs.kind o (hrs ▸ List.mem_map_of_mem ho)
    rw [hrs,readResults_usable hk hu] at hr
    rw [←Except.ok.inj hr] at h
    dsimp only at h
    split at h
    · rename_i hwords
      rw [hwords,hrs] at hs
      exact ⟨opts,scans_iff.mp hs,hu,(Except.ok.inj h).symm⟩
    · cases h

/-- Words that write options that can be used are accepted. -/
theorem optionsReadArgs_written {argv : List Word} (hw : Written optstr opts ⟨[],argv⟩)
    (hu : ∀ o∈opts,Usable o) (a : Arguments) : optionsReadArgs argv a=.ok (given a opts) := by
  have hs := hw.scans
  have hk : ∀ o∈opts,kind optstr o.1=some o.2.isSome := fun o ho =>
    hs.kind o (List.mem_map_of_mem ho)
  rw [optionsReadArgs_scans hs,readResults_usable hk hu]
  rfl

/-- The words that are accepted are those that write options that can be used, in any of the ways
to write them, and the last option of each kind counts. -/
theorem options_read_args (argv : List Word) (a a' : Arguments) :
    optionsReadArgs argv a=.ok a' ↔
      ∃ opts,Written optstr opts ⟨[],argv⟩ ∧ (∀ o∈opts,Usable o) ∧ a'=given a opts := by
  refine ⟨exists_written,?_⟩
  rintro ⟨opts,hw,hu,rfl⟩
  exact optionsReadArgs_written hw hu a

/-- The message for a missing argument belongs to a colon. -/
theorem readOption_missing {opt optopt : Char} {optarg : Word}
    (h : readOption opt optarg optopt a=.error (.missingArgument c)) : opt= ':' := by
  unfold readOption at h
  split at h
  -- the colon itself
  case h_19 => rfl
  -- `o` and `t` have messages of their own
  case h_15 =>
    split at h
    · cases h
    · split at h <;> cases h
  case h_16 => split at h <;> cases h
  all_goals cases h

/-- No result of `getopt` is a colon, so the branch for a missing argument is not taken. -/
theorem readResult_missing {r : Result} (hk : ∀ o,r=.option o → kind optstr o.1=some o.2.isSome) :
    readResult r a≠.error (.missingArgument c) := by
  intro h
  have hcode := readOption_missing h
  cases r with
  | unknown c =>
    have hsame : '?'= ':' := hcode
    exact absurd hsame (by decide)
  | missing c =>
    have hsame : '?'= ':' := hcode
    exact absurd hsame (by decide)
  | option o =>
    have hcolon : o.1= ':' := hcode
    have hkind := hk o rfl
    rw [hcolon] at hkind
    cases hkind

/-- The message for a missing argument is not written for any result. -/
theorem readResults_missing {rs : List Result}
    (hk : ∀ o,.option o∈rs → kind optstr o.1=some o.2.isSome) :
    readResults rs a≠.error (.missingArgument c) := by
  induction rs generalizing a with
  | nil => exact fun h => by cases h
  | cons r rs ih =>
    have hhead : readResult r a≠.error (.missingArgument c) :=
      readResult_missing fun o ho => hk o (ho ▸ List.mem_cons_self)
    rw [readResults]
    cases hr : readResult r a with
    | error e =>
      rw [hr] at hhead
      exact hhead
    | ok a₁ => exact ih fun o ho => hk o (List.mem_cons_of_mem _ ho)

/-- An option that lacks its argument is called unknown, whatever way the options before it are
written: the message for a missing argument is never written. -/
theorem missing_argument (a : Arguments) :
    (∀ argv c,optionsReadArgs argv a≠.error (.missingArgument c)) ∧
    ∀ argv opts c,Lacking optstr c opts ⟨[],argv⟩ → (∀ o∈opts,Usable o) →
      ∃ e,optionsReadArgs argv a=.error e ∧ e.status=1 ∧
        e.messages=["iftop: unknown option -".toList++[c]] := by
  constructor
  · intro argv c h
    obtain ⟨rs,words,hs⟩ := exists_scans optstr ⟨[],argv⟩
    have hno : readResults rs a≠.error (.missingArgument c) := readResults_missing hs.kind
    rw [optionsReadArgs_scans hs] at h
    cases hr : readResults rs a with
    | error e =>
      rw [hr] at h hno
      exact hno h
    | ok a₁ =>
      rw [hr] at h
      dsimp only at h
      split at h <;> cases h
  · intro argv opts c hl hu
    have hs := hl.scans
    have hread : readResults (opts.map Result.option++[.missing c]) a=
        readResults [.missing c] (given a opts) :=
      readResults_append (fun o ho => hs.kind o (List.mem_append_left _
        (List.mem_map_of_mem ho))) hu
    refine ⟨.unknownOption c,?_,rfl,rfl⟩
    rw [optionsReadArgs_scans hs,hread]
    rfl

/-- A cluster of an option, one with its argument attached and one with its argument in the next
word, before an option without argument: what is written is not that the argument is missing. -/
theorem missing_argument_cluster : ∃ e,
    optionsReadArgs ["-nieth0".toList,"-Bc".toList,"rc".toList,"-f".toList]
        ⟨configInit,[],false,.none,0⟩=.error e ∧
      e.status=1 ∧ e.messages=["iftop: unknown option -f".toList] := by
  have hl : Lacking optstr 'f' [('n',none),('i',some "eth0".toList),('B',none),
      ('c',some "rc".toList)] ⟨[],["-nieth0".toList,"-Bc".toList,"rc".toList,"-f".toList]⟩ := by
    refine .word (by decide) (.flag (s := ⟨"ieth0".toList,_⟩) rfl (.attached rfl ?_))
    refine .word (by decide) (.flag (s := ⟨"c".toList,_⟩) rfl (.separate rfl ?_))
    exact .word (by decide) (.missing rfl)
  have hu (o : Opt) (h : o.1≠ 'h' ∧ o.1≠ 'o' ∧ o.1≠ 't') : Usable o :=
    ⟨h.1,fun ho => absurd ho h.2.1,fun ht => absurd ht h.2.2⟩
  refine (missing_argument _).2 _ _ _ hl fun o ho => hu o ?_
  simp only [List.mem_cons,List.not_mem_nil,or_false] at ho
  rcases ho with rfl|rfl|rfl|rfl <;> decide

end IftopColor.CommandLine
