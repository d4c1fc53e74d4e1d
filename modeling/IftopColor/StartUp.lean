import IftopColor.CommandLine
import IftopColor.UiRun

/-!
# From the command line to the first key

`main` sets the defaults, reads the command line and then the configuration file that it names,
makes the options from the configuration and starts the key loop. A directive has the value of its
last option, or else of its first line in the file. No option and no line sets the screen filter,
which is why the key loop never meets one that was not compiled.
-/

namespace IftopColor.StartUp

open Getopt CommandLine ConfigFile OptionsMake SearchTree UiLoop UiRun UiSettings TextBuffer

/-- The name of the configuration file that `options_set_defaults` makes from `HOME`. -/
def defaultConfigFile : Option (List Char)→List Char
  | some home => home++"/.iftoprc".toList
  | none => "iftoprc".toList

/-- What is set before the command line is read. -/
def defaultArguments (home : Option (List Char)) : Arguments where
  config := configInit
  configFile := defaultConfigFile home
  configFileSpecified := false
  exportMode := .none
  exportDuration := 0

/-- Why the program does not start. -/
inductive Failure where
  /-- The program ends itself. -/
  | exit (e : Exit)
  /-- The reader of the file leaves its buffer. -/
  | fault

/-- What `main` has set when it is about to open the interface. -/
structure Started where
  /-- `config` and `options`. -/
  program : Program
  /-- `options.export_mode`. -/
  exportMode : ExportMode
  /-- `options.export_duration`. -/
  exportDuration : ℤ

/-- `main` up to `options_make`; a file that cannot be read is passed over. -/
def startUp (sys : System) (home : Option (List Char)) (files : List Char→Option (List Char))
    (value : Int64) (argv : List Word) : Except Failure Started :=
  match optionsReadArgs argv (defaultArguments home) with
  | .error e => .error (.exit e)
  | .ok a =>
    match readConfigFile (files a.configFile) a.config with
    | none => .error .fault
    | some (_,config) =>
      .ok ⟨optionsMake sys value ⟨config,allDefaults sys⟩,a.exportMode,a.exportDuration⟩

/-- What there is to read says these lines, and a file that is not there says none. -/
def Says (file : Option (List Char)) (ls : List LogicalLine) : Prop :=
  match file with
  | some content => FileOf ls content
  | none => ls=[]

variable {sys : System} {home : Option (List Char)} {files : List Char→Option (List Char)}
  {value : Int64} {argv : List Word} {opts : List Opt} {d : List Char}

/-- The directives of the options are set one after the other. -/
theorem given_config : (given (defaultArguments home) opts).config=
    commandLine (opts.filterMap settingOf) := rfl

/-- For every way to write options that can be used, and every configuration file of lines that the
reader keeps or passes over, the program starts: a directive has the value of its last option, or
else of its first line in the file that the last `-c` names, and the export is that of the last `-o`
and `-t`. -/
theorem start_up {ls : List LogicalLine} (hw : Written optstr opts ⟨[],argv⟩)
    (hu : ∀ o∈opts,Usable o)
    (hf : Says (files ((lastArgument 'c' opts).getD (defaultConfigFile home))) ls) :
    ∃ config,startUp sys home files value argv=
        .ok ⟨optionsMake sys value ⟨config,allDefaults sys⟩,
          ((lastArgument 'o' opts).map formatOf).getD .none,
          ((lastArgument 't' opts).map atoi).getD 0⟩ ∧
      ∀ d,configGetString config d=
        ((opts.filterMap settingOf).reverse.lookup d).or ((entriesOf ls).lookup d) := by
  have hread := optionsReadArgs_written hw hu (defaultArguments home)
  have hsame : (given (defaultArguments home) opts).configFile=
      (lastArgument 'c' opts).getD (defaultConfigFile home) := rfl
  cases hfile : files ((lastArgument 'c' opts).getD (defaultConfigFile home)) with
  | none =>
    rw [hfile] at hf
    have hnil : ls=[] := hf
    refine ⟨commandLine (opts.filterMap settingOf),?_,fun d => ?_⟩
    · unfold startUp
      rw [hread]
      dsimp only
      rw [hsame,hfile]
      rfl
    · rw [find_commandLine,hnil]
      exact (Option.or_none).symm
  | some content =>
    rw [hfile] at hf
    refine ⟨_,?_,find_settings ls (opts.filterMap settingOf)⟩
    unfold startUp
    rw [hread]
    dsimp only
    rw [hsame,hfile,given_config,readConfigFile_lines hf]
    rfl

/-- Names are not resolved, and the file that is named is not there. -/
def quickWords : List Word := ["-nc".toList,"rc".toList]

/-- The program starts with the options of the words, over those of an empty file. -/
theorem start_up_quick : ∃ config,
    startUp plainSystem none (fun _ => none) 0 quickWords=
        .ok ⟨optionsMake plainSystem 0 ⟨config,allDefaults plainSystem⟩,.none,0⟩ ∧
      ∀ d,configGetString config d=
        (([('n',none),('c',some "rc".toList)].filterMap settingOf).reverse.lookup d).or
          ((entriesOf []).lookup d) := by
  have hw : Written optstr [('n',none),('c',some "rc".toList)] ⟨[],quickWords⟩ :=
    .word (by decide) (.flag (s := ⟨['c'],["rc".toList]⟩) rfl (.separate rfl .nil))
  have hread : Says none [] := rfl
  refine start_up hw ?_ hread
  intro o ho
  rcases List.mem_pair.mp ho with rfl|rfl
  · exact ⟨by decide,fun h => absurd h (by decide),fun h => absurd h (by decide)⟩
  · exact ⟨by decide,fun h => absurd h (by decide),fun h => absurd h (by decide)⟩

/-- A line sets a directive of the list. -/
theorem applyLine_other (hd : d∉configDirectives) (line : List Char) (config : StringMap) :
    configGetString (applyLine line config) d=configGetString config d := by
  unfold applyLine
  cases splitLine line with
  | none => rfl
  | some entry =>
    obtain ⟨key,v⟩ := entry
    dsimp only
    split
    · rename_i hvalid
      have hne : d≠key := fun h => hd (h ▸ (isCfgdirectiveValid_iff key).mp hvalid)
      exact find_insert_of_ne strcmp_eq_iff hne config
    · rfl

/-- The lines of a file set directives of the list. -/
theorem readLines_other (hd : d∉configDirectives) {fuel : ℕ} {input : List Char}
    {config config' : StringMap} (h : readLines fuel input config=some config') :
    configGetString config' d=configGetString config d := by
  induction fuel generalizing input config with
  | zero => cases h
  | succ fuel ih =>
    unfold readLines at h
    split at h
    · rw [Option.some.inj h]
    · split at h
      · cases h
      · rw [ih h,applyLine_other hd]

/-- A file sets directives of the list, whatever it contains. -/
theorem readConfigFile_other (hd : d∉configDirectives) {file : Option (List Char)}
    {config config' : StringMap} {b : Bool} (h : readConfigFile file config=some (b,config')) :
    configGetString config' d=configGetString config d := by
  unfold readConfigFile at h
  split at h
  · rw [(Prod.mk.inj (Option.some.inj h)).2]
  · rename_i content
    cases hlines : readLines (content.length+1) content config with
    | none =>
      rw [hlines] at h
      cases h
    | some c =>
      rw [hlines] at h
      rw [← (Prod.mk.inj (Option.some.inj h)).2]
      exact readLines_other hd hlines

/-- No option on the command line sets the screen filter. -/
theorem settingOf_ne {o : Opt} {v : List Char} (h : settingOf o=some (d,v)) :
    d≠"screen-filter".toList := by
  unfold settingOf at h
  split at h
  -- an option without a directive
  case h_14 => cases h
  all_goals rw [← (Prod.mk.inj (Option.some.inj h)).1]
  all_goals decide

/-- Nothing that is read sets the screen filter. -/
theorem startUp_screenfilter {st : Started} (h : startUp sys home files value argv=.ok st) :
    st.program.options.screenfilter=none := by
  unfold startUp at h
  split at h
  · cases h
  · rename_i a ha
    obtain ⟨opts,-,-,hgiven⟩ := exists_written ha
    split at h
    · cases h
    · rename_i config hfile
      have hset : configGetString a.config "screen-filter".toList=none := by
        rw [hgiven,given_config,find_commandLine,List.lookup_eq_none_iff]
        intro entry hentry
        obtain ⟨o,-,ho⟩ := List.mem_filterMap.mp (List.mem_reverse.mp hentry)
        have hne : entry.1≠"screen-filter".toList := settingOf_ne ho
        simpa using Ne.symm hne
      have hother : "screen-filter".toList∉configDirectives := by decide
      have hconfig := readConfigFile_other hother hfile
      rw [← Except.ok.inj h,optionsMake_screenfilter]
      exact hconfig.trans hset

variable {Regex Filter : Type} {pcap : Pcap Filter} {installed : Filter}
  {s : UiState Filter Regex}

/-- For every command line, every configuration file and every stream of keys, rows are never
matched against a screen filter that was not compiled. -/
theorem screen_filter_compiled {st : Started} (h : startUp sys home files value argv=.ok st)
    (hs : uiStart pcap st.program.options installed=.ok s)
    (hf : ∀ text,st.program.options.filtercode=some text → text.length<2^31)
    (junk : Buffer) (regcomp : List Char→Option Regex) (keys : List ℤ) :
    ∀ s',uiLoop junk pcap regcomp s keys=.ok s' → Compiled s'.filter := by
  have hno := startUp_screenfilter h
  have hready := uiStart_ready hs hf fun text ht => by
    rw [hno] at ht
    cases ht
  intro s' hs'
  refine (compiled_iff junk regcomp hready.1 hready.2 keys s' hs').mpr (.inl ?_)
  rw [uiStart_screenfilter hs,hno]

/-- What the arguments of a quick start set. -/
def quickStart : Started where
  program := optionsMake plainSystem 0
    ⟨commandLine [("dns-resolution".toList,"false".toList)],allDefaults plainSystem⟩
  exportMode := .none
  exportDuration := 0

/-- A filter is entered after a start without a file. -/
theorem screen_filter_compiled_entered :
    ∃ (st : Started) (s : UiState (List Char) (List Char)),
      startUp plainSystem none (fun _ => none) 0 quickWords=.ok st ∧
      uiStart openPcap st.program.options []=.ok s ∧
      ∀ s',uiLoop clear openPcap some s [key 'l',key 'b',13]=.ok s' → Compiled s'.filter := by
  have hst : startUp plainSystem none (fun _ => none) 0 quickWords=.ok quickStart := rfl
  have hs : @uiStart (List Char) (List Char) openPcap quickStart.program.options []=.ok _ := rfl
  refine ⟨quickStart,_,hst,hs,?_⟩
  refine screen_filter_compiled hst hs ?_ clear some _
  intro text ht
  cases ht

end IftopColor.StartUp
