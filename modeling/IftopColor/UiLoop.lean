import IftopColor.OptionsMake
import IftopColor.Edline
import IftopColor.ScreenFilter
import IftopColor.RunCounters

/-!
# The keys of `ui_loop`

Each turn of `ui_loop` takes a key and changes an option, or starts the line editor, which then
takes the keys that follow. Which keys are commands is a matter of the keys alone. The options
are what the commands make of them, and both filters are what their own lines in the editor make
of them; the net filter that `libpcap` has installed is always the one whose text is in the
options.
-/

namespace IftopColor.UiLoop

open Options OptionsMake TextBuffer Edline RunCounters ScreenFilter

/-- `options_t`, with the options that only keys change. -/
structure UiOptions extends AllOptions where
  /-- Show the help text. -/
  showhelp : Bool
  /-- Division that the bars show. -/
  barInterval : ℕ
  /-- Lines of the list above the screen. -/
  screenOffset : ℤ

/-- The cases of the switch. -/
inductive Command where
  | quit
  | dnsresolution
  | portresolution
  | showhelp
  | showbars
  | barInterval
  | aggregateSrc
  | aggregateDest
  | srcPorts
  | destPorts
  | ports
  | paused
  | freezeorder
  | sort (column : SortColumn)
  | down
  | up
  | linedisplay
  | netFilter
  | screenFilter
  | subshell
  | showTotals
  | logScale
  | showProcesses
  | redraw
  | nothing
  | unknown
  deriving DecidableEq

/-- A character constant. -/
abbrev key (c : Char) : ℤ := c.toNat

/-- `KEY_CLEAR`. -/
def keyClear : ℤ := 0o515

/-- The labels of the switch. -/
def command (keycode : ℤ) : Command :=
  if keycode=key 'q' then .quit
  else if keycode=key 'n' then .dnsresolution
  else if keycode=key 'N' then .portresolution
  else if keycode=key 'h' ∨ keycode=key '?' then .showhelp
  else if keycode=key 'b' then .showbars
  else if keycode=key 'B' then .barInterval
  else if keycode=key 's' then .aggregateSrc
  else if keycode=key 'd' then .aggregateDest
  else if keycode=key 'S' then .srcPorts
  else if keycode=key 'D' then .destPorts
  else if keycode=key 'p' then .ports
  else if keycode=key 'P' then .paused
  else if keycode=key 'o' then .freezeorder
  else if keycode=key '1' then .sort .div1
  else if keycode=key '2' then .sort .div2
  else if keycode=key '3' then .sort .div3
  else if keycode=key '<' then .sort .src
  else if keycode=key '>' then .sort .dest
  else if keycode=key 'j' then .down
  else if keycode=key 'k' then .up
  else if keycode=key 't' then .linedisplay
  else if keycode=key 'f' then .netFilter
  else if keycode=key 'l' then .screenFilter
  else if keycode=key '!' then .subshell
  else if keycode=key 'T' then .showTotals
  else if keycode=key 'L' then .logScale
  else if keycode=key 'Z' then .showProcesses
  else if keycode=keyClear ∨ keycode=12 then .redraw
  else if keycode=err then .nothing
  else .unknown

/-- What a turn of the loop calls, in order, next to its assignments to the options. -/
inductive Call where
  /-- `showhelp`. -/
  | showhelp (message : List Char)
  /-- `persistenthelp = 1`. -/
  | persist
  /-- `dontshowdisplay` is assigned. -/
  | dontshowdisplay (hidden : Bool)
  /-- `tick`. -/
  | tick (print : Bool)
  /-- `ui_print`. -/
  | uiPrint
  /-- `wrefresh`. -/
  | wrefresh

/-- `OPTION_PORTS_...` after `S`. -/
def PortDisplay.toggleSrc : PortDisplay→PortDisplay
  | .off => .src
  | .dest => .on
  | .on => .dest
  | .src => .off

/-- `OPTION_PORTS_...` after `D`. -/
def PortDisplay.toggleDest : PortDisplay→PortDisplay
  | .off => .dest
  | .src => .on
  | .on => .src
  | .dest => .off

/-- `OPTION_PORTS_...` after `p`. -/
def PortDisplay.toggle (showports : PortDisplay) : PortDisplay :=
  if showports=.off then .on else .off

/-- `OPTION_LINEDISPLAY_...` after `t`. -/
def LineDisplay.next : LineDisplay→LineDisplay
  | .twoLine => .oneLineBoth
  | .oneLineBoth => .oneLineRecv
  | .oneLineRecv => .oneLineSent
  | .oneLineSent => .twoLine

/-- The message of `showportstatus`. -/
def showportstatus : PortDisplay→Call
  | .on => .showhelp "Port display ON".toList
  | .off => .showhelp "Port display OFF".toList
  | .dest => .showhelp "Port display DEST".toList
  | .src => .showhelp "Port display SOURCE".toList

/-- The message for a column. -/
def sortMessage : SortColumn→Call
  | .div1 => .showhelp "Sort by col 1".toList
  | .div2 => .showhelp "Sort by col 2".toList
  | .div3 => .showhelp "Sort by col 3".toList
  | .src => .showhelp "Sort by source".toList
  | .dest => .showhelp "Sort by dest".toList

/-- The message for a display. -/
def linedisplayMessage : LineDisplay→Call
  | .twoLine => .showhelp "Two lines per host".toList
  | .oneLineSent => .showhelp "Sent traffic only".toList
  | .oneLineRecv => .showhelp "Received traffic only".toList
  | .oneLineBoth => .showhelp "One line per host".toList

/-- One of two messages. -/
def message (b : Bool) (on off : String) : Call := .showhelp (if b then on else off).toList

/-- The cases of the switch that do not start the editor, in a build without subshells: the
options and the calls. -/
def runCommand (k : Command) (o : UiOptions) : UiOptions×List Call :=
  match k with
  | .dnsresolution =>
    let o := {o with dnsresolution := !o.dnsresolution}
    (o,[message o.dnsresolution "DNS resolution on" "DNS resolution off",.tick true])
  | .portresolution =>
    let o := {o with portresolution := !o.portresolution}
    (o,[message o.portresolution "Port resolution on" "Port resolution off",.tick true])
  | .showhelp => ({o with showhelp := !o.showhelp},[.tick true])
  | .showbars =>
    let o := {o with showbars := !o.showbars}
    (o,[message o.showbars "Bars on" "Bars off",.tick true])
  | .barInterval =>
    let o := {o with barInterval := (o.barInterval+1)%3}
    (o,[if o.barInterval=0 then .showhelp "Bars show 2s average".toList
      else message (o.barInterval==1) "Bars show 10s average" "Bars show 40s average",.uiPrint])
  | .aggregateSrc =>
    let o := {o with aggregateSrc := !o.aggregateSrc}
    (o,[message o.aggregateSrc "Hide source host" "Show source host"])
  | .aggregateDest =>
    let o := {o with aggregateDest := !o.aggregateDest}
    (o,[message o.aggregateDest "Hide dest host" "Show dest host"])
  | .srcPorts =>
    let o := {o with showports := PortDisplay.toggleSrc o.showports}
    (o,[showportstatus o.showports])
  | .destPorts =>
    let o := {o with showports := PortDisplay.toggleDest o.showports}
    (o,[showportstatus o.showports])
  | .ports =>
    let o := {o with showports := PortDisplay.toggle o.showports}
    (o,[showportstatus o.showports])
  | .paused =>
    let o := {o with paused := !o.paused}
    (o,message o.paused "Display paused" "Display unpaused"::if o.paused then [.persist] else [])
  | .freezeorder =>
    let o := {o with freezeorder := !o.freezeorder}
    (o,message o.freezeorder "Order frozen" "Order unfrozen"::
      if o.freezeorder then [.persist] else [])
  | .sort column => ({o with sort := column},[sortMessage column])
  | .down => ({o with screenOffset := toInt (o.screenOffset+1)},[.uiPrint])
  | .up =>
    if o.screenOffset>0 then ({o with screenOffset := o.screenOffset-1},[.uiPrint]) else (o,[])
  | .linedisplay =>
    let o := {o with linedisplay := LineDisplay.next o.linedisplay}
    (o,[linedisplayMessage o.linedisplay,.uiPrint])
  | .subshell => (o,[.showhelp "Sorry, subshells have been disabled.".toList])
  | .showTotals =>
    let o := {o with showTotals := !o.showTotals}
    (o,[message o.showTotals "Show cumulative totals" "Hide cumulative totals",.uiPrint])
  | .logScale =>
    let o := {o with logScale := !o.logScale}
    (o,[message o.logScale "Logarithmic scale" "Linear scale",.uiPrint])
  | .showProcesses =>
    let o := {o with showProcesses := !o.showProcesses}
    (o,[message o.showProcesses "Process display on" "Process display off",.tick true])
  | .redraw => (o,[.wrefresh])
  | .nothing => (o,[])
  | .unknown => (o,[.showhelp "Press H or ? for help".toList])
  | .quit => (o,[])
  | .netFilter => (o,[])
  | .screenFilter => (o,[])

/-- `libpcap`, as far as it is used for filters: either step may be refused with a message. -/
structure Pcap (Program : Type) where
  /-- `pcap_compile`. -/
  compile : List Char→Except (List Char) Program
  /-- `pcap_setfilter`. -/
  setfilter : Program→Except (List Char) Unit

/-- What the line is for that is edited. -/
inductive Prompt where
  /-- `Net filter`. -/
  | net
  /-- `Screen filter`. -/
  | screen
  deriving DecidableEq

/-- What the loop does with the next key. -/
inductive Mode where
  /-- The next key is a command. -/
  | commands
  /-- `edline` gets it. -/
  | editing (prompt : Prompt) (line : Line)
  /-- `foad` is set and it is not read. -/
  | ended

variable {Program Regex : Type}

/-- What the loop works on. -/
structure UiState (Program Regex : Type) where
  /-- `options`. -/
  options : UiOptions
  /-- `preg`, unless it was freed or never compiled. -/
  preg : Option Regex
  /-- The filter that is in force on `pd`. -/
  installed : Program
  /-- Where the loop waits for a key. -/
  mode : Mode

/-- The variables of `screenfilter.c`. -/
def UiState.filter (s : UiState Program Regex) : Filter (List Char) Regex :=
  ⟨s.options.screenfilter,s.preg⟩

variable (junk : Buffer) (pcap : Pcap Program) (regcomp : List Char→Option Regex)

/-- The text that is compiled for a net filter. -/
def filterText : Option (List Char)→List Char
  | some filter => '('::filter++") and (ip or ip6)".toList
  | none => "ip or ip6".toList

/-- `set_filter_code`: a message on failure, and the filter that is in force then. -/
def setFilterCode (filter : Option (List Char)) (installed : Program) :
    Option (List Char)×Program :=
  match pcap.compile (filterText filter) with
  | .error e => (some e,installed)
  | .ok program =>
    match pcap.setfilter program with
    | .error e => (some e,installed)
    | .ok () => (none,program)

/-- What `main` does before the first key: a filter that is refused ends the program. -/
def uiStart (options : AllOptions) (installed : Program) :
    Except (List Char) (UiState Program Regex) :=
  match setFilterCode pcap options.filtercode installed with
  | (some e,_) => .error e
  | (none,installed) =>
    .ok ⟨{options with showhelp := false,barInterval := 1,screenOffset := 0},none,installed,.commands⟩

/-- Characters as the C string that they begin with. -/
def cString (text : List Char) : CStr :=
  ⟨text.takeWhile fun c => c≠nul,fun h => by simpa using List.mem_takeWhile_imp h⟩

/-- An empty filter is `NULL`. -/
def netFilterText (text : List Char) : Option (List Char) :=
  if text.all fun c => c== ' ' || c== '\t' then none else some text

/-- What is done with a line that was entered. -/
def entered (prompt : Prompt) (text : List Char) (s : UiState Program Regex) :
    UiState Program Regex×List Call :=
  match prompt with
  | .net =>
    match setFilterCode pcap (netFilterText text) s.installed with
    | (none,installed) =>
      ({s with options := {s.options with filtercode := netFilterText text},installed := installed},
        [.wrefresh,.showhelp "Installed new filter".toList])
    | (some m,installed) => ({s with installed := installed},[.showhelp m])
  | .screen =>
    let (result,filter) := screenFilterSet regcomp text s.filter
    ({s with options := {s.options with screenfilter := filter.screenfilter},preg := filter.preg},
      if result then [] else [.showhelp "Invalid regexp".toList])

/-- The text of a prompt. -/
def UiOptions.text (o : UiOptions) : Prompt→Option (List Char)
  | .net => o.filtercode
  | .screen => o.screenfilter

/-- `edline` is called. -/
def startEditing (prompt : Prompt) (s : UiState Program Regex) :
    Except Stop (UiState Program Regex×List Call) := do
  let line ← start junk ((s.options.text prompt).map cString)
  return ({s with mode := .editing prompt line},[.dontshowdisplay true])

/-- `edline` has returned. -/
def finishEditing (prompt : Prompt) (text : Option (List Char)) (s : UiState Program Regex) :
    UiState Program Regex×List Call :=
  let (s,calls) :=
    match text with
    | some text => entered pcap regcomp prompt text s
    | none => (s,[])
  ({s with mode := .commands},calls++[.dontshowdisplay false,.uiPrint,.tick false])

/-- What a key does, up to the next call of `getch`. -/
def uiKey (keycode : ℤ) (s : UiState Program Regex) :
    Except Stop (UiState Program Regex×List Call) :=
  match s.mode with
  | .ended => .ok (s,[])
  | .editing prompt line =>
    match loop junk [keycode] line with
    | .error stop => .error stop
    | .ok (.editing line) => .ok ({s with mode := .editing prompt line},[])
    | .ok (.returned text) => .ok (finishEditing pcap regcomp prompt text s)
  | .commands =>
    match command keycode with
    | .quit => .ok ({s with mode := .ended},[.tick false])
    | .netFilter => startEditing junk .net s
    | .screenFilter => startEditing junk .screen s
    | k =>
      let (options,calls) := runCommand k s.options
      .ok ({s with options := options},calls++[.tick false])

/-- `ui_loop`, for the results of `getch`. -/
def uiLoop (s : UiState Program Regex) : List ℤ→Except Stop (UiState Program Regex)
  | [] => .ok s
  | keycode::keys => do
    let (s,_) ← uiKey junk pcap regcomp keycode s
    uiLoop s keys

end IftopColor.UiLoop
