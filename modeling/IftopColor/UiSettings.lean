import IftopColor.UiLoop

/-!
# The settings that keys make

Where a stream of keys begins and ends a line of the editor is decided by the keys. What is left
are the commands, and each option is updated by some of them, whatever the others do: a switch
is turned, a form of the display goes round, a column is chosen, the list is scrolled but not
above its first line.
-/

namespace IftopColor.UiSettings

open Options OptionsMake Edline RunCounters UiLoop

/-- Pieces of a stream. -/
inductive Item where
  /-- A key that is a command. -/
  | command (k : Command)
  /-- The keys of a line, up to the one that ends it. -/
  | entry (prompt : Prompt) (keys : List ℤ)

/-- Where a stream has come to. -/
inductive Reading where
  /-- The next key is a command. -/
  | commands
  /-- A line is edited, and these keys of it have come. -/
  | editing (prompt : Prompt) (keys : List ℤ)
  /-- No more keys are read. -/
  | ended

/-- What comes after a command. -/
def readCommand : Command→Reading
  | .quit => .ended
  | .netFilter => .editing .net []
  | .screenFilter => .editing .screen []
  | _ => .commands

/-- One more key. -/
def readKey (r : Reading×List Item) (keycode : ℤ) : Reading×List Item :=
  match r.1 with
  | .ended => r
  | .commands => (readCommand (command keycode),r.2++[.command (command keycode)])
  | .editing prompt keys =>
    if ends keycode then (.commands,r.2++[.entry prompt (keys++[keycode])])
    else (.editing prompt (keys++[keycode]),r.2)

/-- The pieces of a stream. -/
def readKeys (keys : List ℤ) : Reading×List Item := keys.foldl readKey (.commands,[])

/-- The command of a piece. -/
def Item.command? : Item→Option Command
  | .command k => some k
  | .entry .. => none

/-- The line of a piece. -/
def Item.entry? (prompt : Prompt) : Item→Option (List ℤ)
  | .command _ => none
  | .entry p keys => if p=prompt then some keys else none

/-- Commands among some pieces. -/
def commandsOf (items : List Item) : List Command := items.filterMap Item.command?

/-- Lines among some pieces. -/
def entriesOf (prompt : Prompt) (items : List Item) : List (List ℤ) :=
  items.filterMap (Item.entry? prompt)

/-- The options that are switched on and off, with the commands that do it. -/
def switches : List (Command×(UiOptions→Bool)) :=
  [(.dnsresolution,fun o => o.dnsresolution),(.portresolution,fun o => o.portresolution),
    (.showhelp,fun o => o.showhelp),(.showbars,fun o => o.showbars),
    (.aggregateSrc,fun o => o.aggregateSrc),(.aggregateDest,fun o => o.aggregateDest),
    (.paused,fun o => o.paused),(.freezeorder,fun o => o.freezeorder),
    (.showTotals,fun o => o.showTotals),(.logScale,fun o => o.logScale),
    (.showProcesses,fun o => o.showProcesses)]

/-- The column that a command sorts by. -/
def Command.column? : Command→Option SortColumn
  | .sort column => some column
  | _ => none

/-- The source ports and the destination ports are shown. -/
def portBits : PortDisplay→Bool×Bool
  | .off => (false,false)
  | .src => (true,false)
  | .dest => (false,true)
  | .on => (true,true)

/-- What a command does to the ports of both sides. -/
def portStep (bits : Bool×Bool) : Command→Bool×Bool
  | .srcPorts => (!bits.1,bits.2)
  | .destPorts => (bits.1,!bits.2)
  | .ports => (!(bits.1 || bits.2),!(bits.1 || bits.2))
  | _ => bits

/-- The number of a display. -/
def displayIndex : LineDisplay→ℕ
  | .twoLine => 0
  | .oneLineBoth => 1
  | .oneLineRecv => 2
  | .oneLineSent => 3

/-- Which way a command scrolls. -/
def scroll : Command→ℤ
  | .down => 1
  | .up => -1
  | _ => 0

/-- The options that no key changes. -/
def fixedOptions (o : UiOptions) :=
  (o.interface,o.promiscuous,o.promiscuousButChoosy,o.bandwidthInBytes,o.maxBandwidth,o.linkLocal,
    (o.netfilter,o.netfilternet,o.netfiltermask),o.netfilter6,o.netfilter6net,o.netfilter6mask)

/-- What some commands make of the options, apart from the texts. -/
structure Settings (cs : List Command) (o o' : UiOptions) : Prop where
  /-- An option that is switched as often as not has its old value. -/
  switches : ∀ e∈switches,e.2 o'=(e.2 o ^^ isOdd (cs.count e.1))
  /-- The bars go round the three divisions. -/
  barInterval : o.barInterval<3→ o'.barInterval=(o.barInterval+cs.count .barInterval)%3
  /-- The display goes round its four forms. -/
  linedisplay : displayIndex o'.linedisplay=
    (displayIndex o.linedisplay+cs.count .linedisplay)%4
  /-- The last column that was chosen. -/
  sort : o'.sort=(cs.filterMap Command.column?).getLast?.getD o.sort
  /-- The ports of one side are shown or not whatever the other side shows. -/
  showports : portBits o'.showports=cs.foldl portStep (portBits o.showports)
  /-- The list stands as far down as the last commands, however many of them, have scrolled. -/
  screenOffset : 0≤o.screenOffset→ o.screenOffset+cs.count .down<2^31→
    IsGreatest {n | n=o.screenOffset+climb scroll cs ∨
      ∃ before after,cs=before++after ∧ n=climb scroll after} o'.screenOffset
  /-- What no key changes. -/
  fixed : fixedOptions o'=fixedOptions o

/-- The options after a command. -/
abbrev apply (o : UiOptions) (k : Command) : UiOptions := (runCommand k o).1

/-- Scrolling up takes one from the offset unless it is zero. -/
theorem apply_up (o : UiOptions) : apply o .up=
    {o with screenOffset := if o.screenOffset>0 then o.screenOffset-1 else o.screenOffset} := by
  unfold apply runCommand
  dsimp only
  split <;> rfl

/-- The options with the texts of others. -/
def withTexts (o texts : UiOptions) : UiOptions :=
  {o with filtercode := texts.filtercode,screenfilter := texts.screenfilter}

/-- Commands do not touch the texts, nor depend on them. -/
theorem apply_withTexts (o texts : UiOptions) (k : Command) :
    apply (withTexts o texts) k=withTexts (apply o k) texts := by
  cases k <;> first | rfl | (rw [apply_up,apply_up]; rfl)

/-- The settings do not depend on the texts. -/
theorem Settings.withTexts {cs : List Command} {o o' : UiOptions} (h : Settings cs o o')
    (texts : UiOptions) : Settings cs o (withTexts o' texts) where
  switches := by
    intro e he
    have hsame : e.2 (UiSettings.withTexts o' texts)=e.2 o' := by
      simp only [UiSettings.switches,List.mem_cons,List.not_mem_nil,or_false] at he
      rcases he with rfl|rfl|rfl|rfl|rfl|rfl|rfl|rfl|rfl|rfl|rfl <;> rfl
    rw [hsame]
    exact h.switches e he
  barInterval := h.barInterval
  linedisplay := h.linedisplay
  sort := h.sort
  showports := h.showports
  screenOffset := h.screenOffset
  fixed := h.fixed

end IftopColor.UiSettings
