import IftopColor.ConfigFile
import IftopColor.NetFilter

/-!
# From the configuration to the options

`options_make` asks the configuration for one directive after the other and sets
the options from the values; two of its readers write a terminator into the text
they read. Directives reach the configuration from the command line through
`config_set_string` and from a file through `read_config_file`, which has a list
of names of its own. The results compare the two ways.
-/

namespace IftopColor.OptionsMake

open SearchTree ConfigFile Options NetFilter AddrHash

/-- The members of `options_t` that `options_make` sets. -/
structure AllOptions extends OptionsT where
  /-- Interface to listen on. -/
  interface : List Char
  /-- Resolve port numbers. -/
  portresolution : Bool
  /-- Packet filter. -/
  filtercode : Option (List Char)
  /-- Show the bar chart. -/
  showbars : Bool
  /-- Promiscuous mode. -/
  promiscuous : Bool
  /-- Show bytes instead of bits. -/
  bandwidthInBytes : Bool
  /-- Regular expression for the lines that are shown. -/
  screenfilter : Option (List Char)
  /-- Show cumulative totals. -/
  showTotals : Bool

/-- An entry of `if_nameindex`. -/
structure Interface where
  /-- Name. -/
  name : List Char
  /-- The flags are not known or have `IFF_UP`. -/
  up : Bool

/-- What the program asks the system for. -/
structure System where
  /-- `if_nameindex`, which may fail. -/
  nameindex : Option (List Interface)
  /-- `inet_aton`. -/
  inetAton : CString→Option InAddr
  /-- `inet_pton` for `AF_INET6`. -/
  inetPton : CString→Option In6Addr

/-- `bad_interface_names`. -/
def badInterfaceNames : List (List Char) :=
  ["lo:".toList,"lo".toList,"stf".toList,"gif".toList,"dummy".toList,"vmnet".toList,
    "wmaster".toList]

/-- `is_bad_interface_name`. -/
def isBadInterfaceName (name : List Char) : Bool :=
  badInterfaceNames.any fun pre => List.isPrefixOf pre name

/-- `get_first_interface`. -/
def getFirstInterface (sys : System) : Option (List Char) := do
  let entry←(←sys.nameindex).find? fun entry =>
    strcmp entry.name "lo".toList≠.eq && !isBadInterfaceName entry.name && entry.up
  return entry.name

/-- The first interface or else `eth0`. -/
def defaultInterface (sys : System) : List Char := (getFirstInterface sys).getD "eth0".toList

/-- `options_set_defaults`. -/
def allDefaults (sys : System) : AllOptions where
  toOptionsT := optionsSetDefaults
  interface := defaultInterface sys
  filtercode := none
  portresolution := true
  promiscuous := false
  showbars := true
  bandwidthInBytes := false
  screenfilter := none
  showTotals := false

/-- `config_get_bool`. -/
def configGetBool (config : StringMap) (directive : List Char) : Bool :=
  match configGetString config directive with
  | some str => strcmp str "yes".toList=.eq || strcmp str "true".toList=.eq
  | none => false

/-- `config_get_enum`: the value of the first name that fits. -/
def configGetEnum {α : Type} (config : StringMap) (directive : List Char)
    (enumeration : List (List Char×α)) : Option α := do
  let str←configGetString config directive
  let entry←enumeration.find? fun entry => strcmp str entry.1=.eq
  return entry.2

/-- `sort_enumeration`. -/
def sortEnumeration : List (List Char×SortColumn) :=
  [("2s".toList,.div1),("10s".toList,.div2),("40s".toList,.div3),("source".toList,.src),
    ("destination".toList,.dest)]

/-- `linedisplay_enumeration`. -/
def linedisplayEnumeration : List (List Char×LineDisplay) :=
  [("two-line".toList,.twoLine),("one-line-both".toList,.oneLineBoth),
    ("one-line-sent".toList,.oneLineSent),("one-line-received".toList,.oneLineRecv)]

/-- `showports_enumeration`. -/
def showportsEnumeration : List (List Char×PortDisplay) :=
  [("off".toList,.off),("source-only".toList,.src),("destination-only".toList,.dest),
    ("on".toList,.on)]

/-- `options_config_get_string`: the option afterwards. -/
def optionsConfigGetString (config : StringMap) (name : List Char) (value : Option (List Char)) :
    Option (List Char) :=
  (configGetString config name).or value

/-- `options_config_get_bool`: the option afterwards. -/
def optionsConfigGetBool (config : StringMap) (name : List Char) (value : Bool) : Bool :=
  if (configGetString config name).isSome then configGetBool config name else value

/-- `options_config_get_enum`: the option afterwards. -/
def optionsConfigGetEnum {α : Type} (config : StringMap) (name : List Char)
    (enumeration : List (List Char×α)) (result : α) : α :=
  if (configGetString config name).isSome then
    (configGetEnum config name enumeration).getD result
  else result

/-- `options_config_get_promiscuous`. -/
def optionsConfigGetPromiscuous (config : StringMap) (o : AllOptions) : AllOptions :=
  if (configGetString config "promiscuous".toList).isSome then
    let o := {o with promiscuous := configGetBool config "promiscuous".toList}
    if o.promiscuous then {o with promiscuousButChoosy := false} else o
  else o

/-- Factor of a unit. -/
def unitFactor (unit : Char) : Option Int64 :=
  if unit= 'k' ∨ unit= 'K' then some 1024
  else if unit= 'm' ∨ unit= 'M' then some (1024*1024)
  else if unit= 'g' ∨ unit= 'G' then some (1024*1024*1024)
  else if unit= 'b' ∨ unit= 'B' then some 1
  else none

/-- What `sscanf` with `%lld` leaves in a variable with the content `value`. It
reads digits up to `LLONG_MAX`, and without digits it fails. -/
def scanRate (digits : CString) (value : Int64) : Int64 :=
  if digits=[] then value else .ofNat (min (digitsValue digits) (2^63-1))

/-- `options_config_get_bw_rate` for the stored text: the text that stays in the
configuration and the rate. `value` is what its uninitialised variable holds; the
message about a failed `sscanf` does not end the function. -/
def optionsConfigGetBwRate (value : Int64) (str : Option CString) (maxBandwidth : ℤ) :
    Option CString×ℤ :=
  match str with
  | none => (none,maxBandwidth)
  | some str =>
    let digits := str.takeWhile Char.isDigit
    match str.dropWhile Char.isDigit with
    | [] => (some digits,(scanRate digits value*1).toInt)
    | [unit] =>
      match unitFactor unit with
      | some mult => (some digits,(scanRate digits value*mult).toInt)
      | none => (some str,maxBandwidth)
    | _ => (some str,maxBandwidth)

/-- The variables `config` and `options`. -/
structure Program where
  /-- Configuration. -/
  config : StringMap
  /-- Options. -/
  options : AllOptions

/-- A reader wrote into the stored text. -/
def configWrite (config : StringMap) (directive : List Char) (str : Option CString) : StringMap :=
  match str with
  | none => config
  | some str => replace strcmp directive str config

/-- `options_make` down to `log-scale`, which leaves the configuration alone. -/
def makeFlags (sys : System) (config : StringMap) (o : AllOptions) : AllOptions :=
  let o := {o with
    interface :=
      (optionsConfigGetString config "interface".toList none).getD (defaultInterface sys)}
  let o := {o with
    dnsresolution := optionsConfigGetBool config "dns-resolution".toList o.dnsresolution}
  let o := {o with
    portresolution := optionsConfigGetBool config "port-resolution".toList o.portresolution}
  let o := {o with filtercode := optionsConfigGetString config "filter-code".toList none}
  let o := {o with showbars := optionsConfigGetBool config "show-bars".toList o.showbars}
  let o := optionsConfigGetPromiscuous config o
  let o := {o with aggregateSrc := optionsConfigGetBool config "hide-source".toList o.aggregateSrc}
  let o := {o with
    aggregateDest := optionsConfigGetBool config "hide-destination".toList o.aggregateDest}
  let o := {o with
    bandwidthInBytes := optionsConfigGetBool config "use-bytes".toList o.bandwidthInBytes}
  let o := {o with sort := optionsConfigGetEnum config "sort".toList sortEnumeration o.sort}
  let o := {o with
    linedisplay :=
      optionsConfigGetEnum config "line-display".toList linedisplayEnumeration o.linedisplay}
  let o := {o with showTotals := optionsConfigGetBool config "show-totals".toList o.showTotals}
  {o with logScale := optionsConfigGetBool config "log-scale".toList o.logScale}

/-- The call of `options_config_get_bw_rate`. -/
def makeRate (value : Int64) (p : Program) : Program :=
  let (str,rate) := optionsConfigGetBwRate value
    (configGetString p.config "max-bandwidth".toList) p.options.maxBandwidth
  ⟨configWrite p.config "max-bandwidth".toList str,{p.options with maxBandwidth := rate}⟩

/-- `options_make` from `port-display` to `show-processes`. -/
def makeDisplay (config : StringMap) (o : AllOptions) : AllOptions :=
  let o := {o with
    showports := optionsConfigGetEnum config "port-display".toList showportsEnumeration o.showports}
  let o := {o with screenfilter := optionsConfigGetString config "screen-filter".toList none}
  let o := {o with linkLocal := optionsConfigGetBool config "link-local".toList o.linkLocal}
  {o with showProcesses := optionsConfigGetBool config "show-processes".toList o.showProcesses}

/-- The calls that read the net filters. -/
def makeNetFilters (sys : System) (p : Program) : Program :=
  let (_,str,o) := optionsConfigGetNetFilter sys.inetAton
    (configGetString p.config "net-filter".toList) p.options.toOptionsT
  let config := configWrite p.config "net-filter".toList str
  let (_,str,o) := optionsConfigGetNetFilter6 sys.inetPton
    (configGetString config "net-filter6".toList) o
  ⟨configWrite config "net-filter6".toList str,{p.options with toOptionsT := o}⟩

/-- `options_make`, where `value` is what the uninitialised variable of
`options_config_get_bw_rate` holds. -/
def optionsMake (sys : System) (value : Int64) (p : Program) : Program :=
  let p := {p with options := makeFlags sys p.config p.options}
  let p := makeRate value p
  let p := {p with options := makeDisplay p.config p.options}
  makeNetFilters sys p

/-- The directives that `options_make` asks for, in its order. -/
def consulted : List (List Char) :=
  ["interface".toList,"dns-resolution".toList,"port-resolution".toList,"filter-code".toList,
    "show-bars".toList,"promiscuous".toList,"hide-source".toList,"hide-destination".toList,
    "use-bytes".toList,"sort".toList,"line-display".toList,"show-totals".toList,
    "log-scale".toList,"max-bandwidth".toList,"port-display".toList,"screen-filter".toList,
    "link-local".toList,"show-processes".toList,"net-filter".toList,"net-filter6".toList]

/-- A value that fits on a line of its own: without NUL, newline and hash sign, no
blank at either end, no final backslash, and not too long. -/
structure PlainValue (v : List Char) : Prop where
  /-- The value has neither NUL nor newline. -/
  text : Text v
  /-- No comment. -/
  hash : '#'∉v
  /-- No leading blank. -/
  head : ∀ c∈v.head?,isBlank c=false
  /-- No trailing blank. -/
  last : ∀ c∈v.getLast?,isBlank c=false
  /-- No continuation. -/
  ending : v.getLast?≠some '\\'
  /-- Length. -/
  short : v.length≤1000

/-- The line `d: v`. -/
def lineOf (d v : List Char) : List Char := d++ ':':: ' '::v

/-- Directives that are asked for are keys without NUL, and not long. -/
theorem consulted_clean : ∀ d∈consulted,KeyText d ∧ Text d ∧ d.length≤16 := by
  have hall : (consulted.all fun d => (!d.isEmpty &&
      d.all fun c => !isBlank c && !(c== ':' || c== '#' || c== '\n')) &&
      (d.all isText && decide (d.length≤16)))=true := by decide
  intro d hd
  simpa [KeyText,and_assoc] using List.all_eq_true.mp hall d hd

variable {d v e : List Char}

/-- The file with the line `d: v` is read as the directive and the value, and
counts if the directive is in the list of the reader. -/
theorem readConfigFile_lineOf (hd : d∈consulted) (hv : PlainValue v) (he : e=[] ∨ e=['\n']) :
    readConfigFile (some (lineOf d v++e)) configInit=
      some (true,if d∈configDirectives then insert strcmp d v configInit else configInit) := by
  obtain ⟨hkey,htext,hlen⟩ := consulted_clean d hd
  have hline : Text (lineOf d v) := by
    refine List.forall_mem_append.mpr ⟨htext,?_⟩
    simp only [List.forall_mem_cons]
    exact ⟨by decide,by decide,hv.text⟩
  have hlast : (lineOf d v).getLast?≠some '\\' := by
    have hending := hv.ending
    rw [lineOf,List.getLast?_append_of_ne_nil _ (by simp)]
    cases v with
    | nil => decide
    | cons c cs => simpa using hending
  have hfit : (lineOf d v).length≤2000 := by
    have := hv.short
    simp only [lineOf,List.length_append,List.length_cons]
    omega
  have hsplit : splitLine (lineOf d v)=some (d,v) := by
    have hvalue : ∀ c∈v,c≠ '#' ∧ c≠ '\n' := fun c hc =>
      ⟨fun h => hv.hash (h ▸ hc),ne_newline hv.text c hc⟩
    have hpad : ∀ c∈[' '],isBlank c := by simp [isBlank]
    have hnil : ∀ c∈[],isBlank c := List.forall_mem_nil _
    have hparts := splitLine_parts none hkey hvalue hv.head hv.last hnil hnil hpad hnil
    simpa [lineOf,commentText] using hparts
  rw [readConfigFile_line hline (by simp [lineOf]) hlast hfit he,applyLine,hsplit]
  dsimp only
  simp only [isCfgdirectiveValid_iff]

/-- A rate without digits that the reader does not reject. -/
def NoDigits (v : CString) : Prop := v=[] ∨ ∃ unit∈"kKmMgGbB".toList,v=[unit]

/-- A character that is no letter of a unit has no factor. -/
theorem unitFactor_none {unit : Char} (h : unit∉"kKmMgGbB".toList) : unitFactor unit=none := by
  simp only [String.reduceToList,List.mem_cons,List.not_mem_nil,or_false,not_or] at h
  obtain ⟨hk,hK,hm,hM,hg,hG,hb,hB⟩ := h
  simp [unitFactor,hk,hK,hm,hM,hg,hG,hb,hB]

/-- The uninitialised variable is not read when there are digits, and not when
the text is rejected. -/
theorem getBwRate_initialised (h : ¬NoDigits v) (value value' : Int64) (m : ℤ) :
    optionsConfigGetBwRate value (some v) m=optionsConfigGetBwRate value' (some v) m := by
  by_cases hdigits : v.takeWhile Char.isDigit=[]
  · have hall : v.dropWhile Char.isDigit=v := by
      have := List.takeWhile_append_dropWhile (p:=Char.isDigit) (l:=v)
      rwa [hdigits,List.nil_append] at this
    unfold optionsConfigGetBwRate
    dsimp only
    rw [hall]
    match v,h with
    | [],h => exact absurd (.inl rfl) h
    | [unit],h =>
      have hunit : unit∉"kKmMgGbB".toList := fun hc => h (.inr ⟨unit,hc,rfl⟩)
      simp only [unitFactor_none hunit]
    | _::_::_,_ => rfl
  · have hscan (value : Int64) : scanRate (v.takeWhile Char.isDigit) value=
        .ofNat (min (digitsValue (v.takeWhile Char.isDigit)) (2^63-1)) := by
      rw [scanRate,if_neg hdigits]
    simp only [optionsConfigGetBwRate,hscan]

/-- Without digits the rate is made from the uninitialised variable. -/
theorem getBwRate_uninitialised (h : NoDigits v) :
    (optionsConfigGetBwRate 0 (some v) 0).2≠(optionsConfigGetBwRate 1 (some v) 0).2 := by
  rcases h with rfl|⟨unit,hu,rfl⟩
  · decide
  · simp only [String.reduceToList,List.mem_cons,List.not_mem_nil,or_false] at hu
    rcases hu with rfl|rfl|rfl|rfl|rfl|rfl|rfl|rfl <;> decide

/-- The net filters leave the rate alone. -/
theorem makeNetFilters_maxBandwidth (sys : System) (p : Program) :
    (makeNetFilters sys p).options.maxBandwidth=p.options.maxBandwidth := by
  have h4 (str : Option CString) (o : OptionsT) :
      (optionsConfigGetNetFilter sys.inetAton str o).2.2.maxBandwidth=o.maxBandwidth := by
    unfold optionsConfigGetNetFilter
    split
    · rfl
    · dsimp only
      split
      · rfl
      · split
        · rfl
        · split
          · rfl
          · split <;> rfl
  have h6 (str : Option CString) (o : OptionsT) :
      (optionsConfigGetNetFilter6 sys.inetPton str o).2.2.maxBandwidth=o.maxBandwidth := by
    unfold optionsConfigGetNetFilter6
    split
    · rfl
    · dsimp only
      split
      · rfl
      · split
        · rfl
        · split
          · split <;> rfl
          · split <;> rfl
  simp only [makeNetFilters,h6,h4]

/-- The rate comes from `max-bandwidth`. -/
theorem optionsMake_maxBandwidth (sys : System) (value : Int64) (p : Program) :
    (optionsMake sys value p).options.maxBandwidth=
      (optionsConfigGetBwRate value (configGetString p.config "max-bandwidth".toList)
        p.options.maxBandwidth).2 := by
  have hflags (config : StringMap) (o : AllOptions) :
      (makeFlags sys config o).maxBandwidth=o.maxBandwidth := by
    simp only [makeFlags,optionsConfigGetPromiscuous]
    split
    · split <;> rfl
    · rfl
  unfold optionsMake
  rw [makeNetFilters_maxBandwidth]
  simp only [makeDisplay,makeRate,hflags]

/-- The screen filter comes from `screen-filter`. -/
theorem optionsMake_screenfilter (sys : System) (value : Int64) (p : Program) :
    (optionsMake sys value p).options.screenfilter=
      configGetString p.config "screen-filter".toList := by
  have hwrite (str : Option CString) :
      configGetString (configWrite p.config "max-bandwidth".toList str) "screen-filter".toList=
        configGetString p.config "screen-filter".toList := by
    cases str with
    | none => rfl
    | some str => exact find_replace_of_ne strcmp_eq_iff (by decide) ..
  simp only [optionsMake,makeNetFilters,makeDisplay,makeRate,optionsConfigGetString,hwrite,
    Option.or_none]

/-- The uninitialised variable counts only for a rate without digits. -/
theorem optionsMake_initialised (sys : System) (p : Program)
    (h : ∀ str∈configGetString p.config "max-bandwidth".toList,¬NoDigits str)
    (value value' : Int64) : optionsMake sys value p=optionsMake sys value' p := by
  have hrate (m : ℤ) :
      optionsConfigGetBwRate value (configGetString p.config "max-bandwidth".toList) m=
        optionsConfigGetBwRate value' (configGetString p.config "max-bandwidth".toList) m := by
    cases hstr : configGetString p.config "max-bandwidth".toList with
    | none => rfl
    | some str => exact getBwRate_initialised (h str hstr) value value' m
  simp only [optionsMake,makeRate,hrate]

/-- The options are the same after a setting on the command line and after a file
with the same directive, whatever the uninitialised variable holds in both runs. -/
def Alike (sys : System) (d v e : List Char) : Prop :=
  ∀ value value' : Int64,∃ config,
    readConfigFile (some (lineOf d v++e)) configInit=some (true,config) ∧
    (optionsMake sys value ⟨configSetString configInit d v,allDefaults sys⟩).options=
      (optionsMake sys value' ⟨config,allDefaults sys⟩).options

/-- The directive is not the one that is missing from the list of the reader, and
not a maximal bandwidth without digits. -/
def Carried (d v : List Char) : Prop :=
  d≠"screen-filter".toList ∧ ¬(d="max-bandwidth".toList ∧ NoDigits v)

/-- The reader knows all directives that are asked for, but one. -/
theorem mem_configDirectives (hd : d∈consulted) (hne : d≠"screen-filter".toList) :
    d∈configDirectives := by
  have hall : ∀ d∈consulted,d≠"screen-filter".toList→d∈configDirectives := by decide
  exact hall d hd hne

/-- A setting on the command line is found under its own directive and under no other. -/
theorem get_setting (d v d' : List Char) :
    configGetString (configSetString configInit d v) d'=if d'=d then some v else none :=
  find_configSetString configInit d v d'

/-- A screen filter in a file is lost. -/
theorem screenFilter_not_alike (sys : System) (hv : PlainValue v) (he : e=[] ∨ e=['\n']) :
    ¬Alike sys "screen-filter".toList v e := by
  intro halike
  obtain ⟨config,hread,hopts⟩ := halike 0 0
  rw [readConfigFile_lineOf (by decide) hv he,if_neg (by decide)] at hread
  obtain rfl : configInit=config := by simpa using hread
  have hfilter := congrArg AllOptions.screenfilter hopts
  rw [optionsMake_screenfilter,optionsMake_screenfilter,get_setting,if_pos rfl] at hfilter
  exact absurd hfilter (by simp [configInit,configGetString,find])

/-- A maximal bandwidth without digits differs from run to run. -/
theorem noDigits_not_alike (sys : System) (hv : PlainValue v) (he : e=[] ∨ e=['\n'])
    (hnone : NoDigits v) : ¬Alike sys "max-bandwidth".toList v e := by
  intro halike
  obtain ⟨config,hread,hopts⟩ := halike 0 1
  rw [readConfigFile_lineOf (by decide) hv he,if_pos (by decide)] at hread
  obtain rfl : configSetString configInit "max-bandwidth".toList v=config := by
    simpa [configSetString,configInit,find] using hread
  have hrate := congrArg (fun o => o.maxBandwidth) hopts
  rw [optionsMake_maxBandwidth,optionsMake_maxBandwidth,get_setting,if_pos rfl] at hrate
  exact getBwRate_uninitialised hnone hrate

/-- File and command line reach the options alike exactly for the directives and
values that are carried. -/
theorem options_alike_iff (sys : System) {d v e : List Char} (hd : d∈consulted)
    (hv : PlainValue v) (he : e=[] ∨ e=['\n']) : Alike sys d v e ↔ Carried d v := by
  constructor
  · intro halike
    refine ⟨?_,?_⟩
    · rintro rfl
      exact screenFilter_not_alike sys hv he halike
    · rintro ⟨rfl,hnone⟩
      exact noDigits_not_alike sys hv he hnone halike
  · -- both ways lead to the same configuration
    rintro ⟨hne,hrate⟩ value value'
    refine ⟨configSetString configInit d v,?_,?_⟩
    · rw [readConfigFile_lineOf hd hv he,if_pos (mem_configDirectives hd hne)]
      rfl
    · rw [optionsMake_initialised sys _ _ value value']
      intro str hstr
      rw [get_setting] at hstr
      split at hstr
      · rename_i hmax
        obtain rfl : v=str := by simpa using hstr
        exact fun hnone => hrate ⟨hmax.symm,hnone⟩
      · simp at hstr

/-- Two interfaces, and the address parsers for plain addresses. -/
def plainSystem : System where
  nameindex := some [⟨"lo".toList,true⟩,⟨"en0".toList,true⟩]
  inetAton := parseQuad
  inetPton := parseNet6

/-- Words without special characters are plain. -/
theorem plainValue_word {v : List Char}
    (h : (v.all fun c => isText c && !isBlank c && !(c== '#' || c== '\\'))=true)
    (hs : v.length≤1000) : PlainValue v := by
  have hall : ∀ c∈v,isText c ∧ isBlank c=false ∧ c≠ '#' ∧ c≠ '\\' := by
    intro c hc
    simpa [and_assoc] using List.all_eq_true.mp h c hc
  refine ⟨fun c hc => (hall c hc).1,fun hc => (hall _ hc).2.2.1 rfl,?_,?_,?_,hs⟩
  · exact fun c hc => (hall c (List.mem_of_mem_head? hc)).2.1
  · exact fun c hc => (hall c (List.mem_of_mem_getLast? hc)).2.1
  · exact fun hc => (hall _ (List.mem_of_mem_getLast? hc)).2.2.2 rfl

/-- Sorting by the longest average means the same in the file and on the command line. -/
theorem options_alike_iff_sort :
    Alike plainSystem "sort".toList "40s".toList ['\n'] ↔ Carried "sort".toList "40s".toList :=
  have hv : PlainValue "40s".toList := plainValue_word rfl (by decide)
  options_alike_iff plainSystem (by decide) hv (.inr rfl)

/-- The line `screen-filter: dns` of a file does not set the screen filter. -/
theorem screenFilter_file_lost : ¬Alike plainSystem "screen-filter".toList "dns".toList ['\n'] :=
  have hv : PlainValue "dns".toList := plainValue_word rfl (by decide)
  screenFilter_not_alike plainSystem hv (.inr rfl)

end IftopColor.OptionsMake
