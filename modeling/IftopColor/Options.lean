import IftopColor.AddrHash
import Mathlib.Data.Fin.VecNotation

/-!
# Run-time options

The members of `options_t` that the modelled functions read, in the order of
the structure. Flags that the program only tests for being set are Booleans.
-/

namespace IftopColor.Options

open AddrHash

/-- `option_port_t`. -/
inductive PortDisplay where
  | off
  | src
  | dest
  | on
  deriving DecidableEq

/-- `option_sort_t`. -/
inductive SortColumn where
  | div1
  | div2
  | div3
  | src
  | dest
  deriving DecidableEq

/-- `option_linedisplay_t`. -/
inductive LineDisplay where
  | twoLine
  | oneLineBoth
  | oneLineRecv
  | oneLineSent
  deriving DecidableEq

/-- `options_t`. -/
structure OptionsT where
  /-- Resolve host names. -/
  dnsresolution : Bool
  /-- Which ports are shown; hidden ports are aggregated. -/
  showports : PortDisplay
  /-- Ignore packets between two other machines. -/
  promiscuousButChoosy : Bool
  /-- Merge all source hosts. -/
  aggregateSrc : Bool
  /-- Merge all destination hosts. -/
  aggregateDest : Bool
  /-- Keep the last display. -/
  paused : Bool
  /-- Sort column. -/
  sort : SortColumn
  /-- Keep the current order of lines. -/
  freezeorder : Bool
  /-- Lines for each pair of hosts. -/
  linedisplay : LineDisplay
  /-- Fixed scale of the bar chart, zero for automatic. -/
  maxBandwidth : ℤ
  /-- Logarithmic bar chart. -/
  logScale : Bool
  /-- IPv4 net filter is on. -/
  netfilter : Bool
  /-- Network of the IPv4 net filter. -/
  netfilternet : InAddr
  /-- Mask of the IPv4 net filter. -/
  netfiltermask : InAddr
  /-- IPv6 net filter is on. -/
  netfilter6 : Bool
  /-- Network of the IPv6 net filter. -/
  netfilter6net : In6Addr
  /-- Mask of the IPv6 net filter. -/
  netfilter6mask : In6Addr
  /-- Account for link-local traffic. -/
  linkLocal : Bool
  /-- Attribute flows to processes. -/
  showProcesses : Bool

/-- Address `fe80::`. -/
def linkLocalNet : In6Addr := fun j =>
  if j.val=0 then 0xfe else if j.val=1 then 0x80 else 0

/-- Address `ffff::`. -/
def defaultMask6 : In6Addr := fun j => if j.val<2 then 0xff else 0

/-- `options_set_defaults`, on a platform that needs no promiscuous mode to
see outgoing packets. -/
def optionsSetDefaults : OptionsT where
  netfilter := false
  netfilternet := ![10,0,1,0]
  netfiltermask := ![255,255,255,0]
  netfilter6 := false
  netfilter6net := linkLocalNet
  netfilter6mask := defaultMask6
  linkLocal := false
  dnsresolution := true
  promiscuousButChoosy := false
  showports := .off
  aggregateSrc := false
  aggregateDest := false
  paused := false
  sort := .div2
  freezeorder := false
  linedisplay := .twoLine
  maxBandwidth := 0
  logScale := false
  showProcesses := true

end IftopColor.Options
