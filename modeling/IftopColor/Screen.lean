import IftopColor.FlowAccounting
import Mathlib.Data.Rat.Floor

/-!
# The screen lines and their analysis

`analyse_data` turns the flow history into screen lines: flows are merged by
zeroing parts of their keys, the slots of each flow are added up into three
divisions, and the sums are divided by the lengths of the divisions. Lines are
heap objects reached through the screen table, which shares its node pool with
the history; in frozen mode lines and their order survive from earlier calls.
Rates are exact rationals, `qsort` and the host names are parameters.
-/

namespace IftopColor.Screen

open ChainTable BlockPool RecordStore AddrHash Options ProcInfo PacketDirection History
open FlowAccounting

/-- `HISTORY_DIVISIONS`. -/
abbrev historyDivisions : ℕ := 3

/-- Index of a division. -/
abbrev Division := Fin historyDivisions

/-- There is a first division. -/
scoped instance divisionNeZero : NeZero historyDivisions := ⟨by decide⟩

/-- `history_divs`: slots in each division. -/
def historyDivs : Division→ℕ := ![2,10,40]

/-- `RESOLUTION`, in seconds. -/
def resolution : ℚ := 1

/-- `PROCNAME_LENGTH`. -/
def procnameLength : ℕ := 64

/-- `host_pair_line`. -/
structure HostPairLine where
  /-- Aggregated key. -/
  ap : AddrPair
  /-- Bytes received in total. -/
  totalRecv : ℕ
  /-- Bytes sent in total. -/
  totalSent : ℕ
  /-- Received bytes of each division, then rates. -/
  recv : Division→ℚ
  /-- Sent bytes of each division, then rates. -/
  sent : Division→ℚ
  /-- Host name to sort by. -/
  cachedHostname : List Char
  /-- Process id, zero when unknown. -/
  pid : ℤ
  /-- Process name without its terminator. -/
  processName : List Char

/-- Zeroed memory read as a line. -/
def HostPairLine.zero : HostPairLine := ⟨AddrPair.zero,0,0,fun _ => 0,fun _ => 0,[],0,[]⟩

/-- Globals of the program: those of the capture side and those of the screen. -/
structure Ui extends Capture where
  /-- `slot_elapsed`. -/
  slotElapsed : ℚ
  /-- The table of lines; its records are pointers into `lineMem`. -/
  screenHash : AddrTable
  /-- Heap memory of the lines. -/
  lineMem : ℕ→HostPairLine
  /-- Heap addresses from here on were never handed out. -/
  lineBrk : ℕ
  /-- Pointers of `screen_list`, in order. -/
  screenList : List ℕ
  /-- `totals`. -/
  totals : HostPairLine
  /-- `peaksent`. -/
  peaksent : ℤ
  /-- `peakrecv`. -/
  peakrecv : ℤ
  /-- `peaktotal`. -/
  peaktotal : ℤ

/-- Globals before the first packet, with an empty screen. -/
def initUi : Ui where
  toCapture := initHistory
  slotElapsed := 0
  screenHash := Table.empty
  lineMem := fun _ => HostPairLine.zero
  lineBrk := 0
  screenList := []
  totals := HostPairLine.zero
  peaksent := 0
  peakrecv := 0
  peaktotal := 0

/-- The lines on the screen: aggregated keys with their lines. -/
def lines (u : Ui) : List (AddrPair×HostPairLine) := entries u.screenHash u.lineMem

/-- The update of `slot_elapsed` in `tick`, from the time since the last rotation. -/
def setSlotElapsed (diff : ℚ) (u : Ui) : Ui :=
  let slotElapsed := if diff<0 then 0 else diff
  {u with slotElapsed := if slotElapsed>resolution then resolution else slotElapsed}

/-- `history_length`: seconds covered by a division. -/
def historyLengthOf (u : Ui) (division : Division) : ℚ :=
  let fullSlots := if u.historyLen<historyDivs division then u.historyLen else historyDivs division
  if fullSlots≤1 then if u.slotElapsed>0 then u.slotElapsed else resolution
  else (fullSlots-1)*resolution+u.slotElapsed

/-- The first of the divisions in which two lines have different rates decides. -/
def firstDifference (rate : HostPairLine→Division→ℚ) (aa bb : HostPairLine) :
    List Division→Option Bool
  | [] => none
  | j::js => if rate aa j≠rate bb j then some (decide (rate aa j < rate bb j))
    else firstDifference rate aa bb js

/-- `screen_line_bandwidth_compare`, with the divisions from `start_div` on. -/
def screenLineBandwidthCompare (o : OptionsT) (aa bb : HostPairLine) (divs : List Division) : Bool :=
  let oneLine :=
    match o.linedisplay with
    | .oneLineSent => firstDifference HostPairLine.sent aa bb divs
    | .oneLineRecv => firstDifference HostPairLine.recv aa bb divs
    | .twoLine => none
    | .oneLineBoth => none
  match oneLine with
  | some less => less
  | none => (firstDifference (fun line j => line.recv j+line.sent j) aa bb divs).getD true

/-- `screen_line_host_compare`. -/
def screenLineHostCompare (o : OptionsT) (aa bb : HostPairLine) : Bool :=
  if aa.cachedHostname=bb.cachedHostname then screenLineBandwidthCompare o aa bb [2]
  else decide (bb.cachedHostname<aa.cachedHostname)

/-- `screen_line_compare`. -/
def screenLineCompare (o : OptionsT) (aa bb : HostPairLine) : Bool :=
  match o.sort with
  | .div1 => screenLineBandwidthCompare o aa bb [0,1,2]
  | .div2 => screenLineBandwidthCompare o aa bb [1,2]
  | .div3 => screenLineBandwidthCompare o aa bb [2]
  | .src => screenLineHostCompare o aa bb
  | .dest => screenLineHostCompare o aa bb

/-- Add the bytes of one slot to some of the divisions. -/
def addSlot (divs : List Division) (recvBytes sentBytes : ℕ) (line : HostPairLine) : HostPairLine :=
  {line with
    recv := fun j => if j∈divs then line.recv j+recvBytes else line.recv j
    sent := fun j => if j∈divs then line.sent j+sentBytes else line.sent j}

/-- One of the loops over slots, from the index where the last one stopped. -/
def slotLoop (divs : List Division) (start stop : ℕ) (pos : Slot) (hist : HistoryType)
    (line : HostPairLine) : HostPairLine :=
  (List.range' start (stop-start)).foldl
    (fun line i => addSlot divs (hist.recv (histIdx pos i)) (hist.sent (histIdx pos i)) line) line

/-- The three loops, which `analyse_data` runs for every flow and
`calculate_totals` for the totals. -/
def accumulate (pos : Slot) (hist : HistoryType) (line : HostPairLine) : HostPairLine :=
  let line := slotLoop [0,1,2] 0 (historyDivs 0) pos hist line
  let line := slotLoop [1,2] (historyDivs 0) (historyDivs 1) pos hist line
  slotLoop [2] (historyDivs 1) historyLength pos hist line

/-- The aggregated key of a flow. -/
def aggregate (o : OptionsT) (ap : AddrPair) : AddrPair :=
  let ap := if o.aggregateSrc then {ap with src6 := fun _ => 0} else ap
  let ap := if o.aggregateDest then {ap with dst6 := fun _ => 0} else ap
  let ap := if o.showports=.dest ∨ o.showports=.off then {ap with srcPort := 0} else ap
  let ap := if o.showports=.src ∨ o.showports=.off then {ap with dstPort := 0} else ap
  if o.showports=.off then {ap with protocol := 0} else ap

/-- `screen_list_clear`. -/
def screenListClear (u : Ui) : Ui :=
  {u with peaksent := 0,peakrecv := 0,peaktotal := 0,screenList := []}

/-- What `screen_hash_clear` does to a line. -/
def HostPairLine.clear (line : HostPairLine) : HostPairLine :=
  {line with totalRecv := 0,totalSent := 0,recv := fun _ => 0,sent := fun _ => 0}

/-- `screen_hash_clear`: zero all lines, keep them all. -/
def screenHashClear (u : Ui) : Ui :=
  {u with lineMem := forEach HostPairLine.clear (hashItems u.screenHash) u.lineMem}

/-- `addr_hash_delete_all_free` on the screen table: all lines are freed. -/
def screenHashReset (u : Ui) : Ui :=
  let freed := addrHashDeleteAllFree u.screenHash u.nodePool
  {u with screenHash := freed.1,nodePool := freed.2.1}

/-- Find the line of an aggregated key, or allocate and insert it. -/
def findOrCreateLine (ap : AddrPair) (u : Ui) : ℕ×Ui :=
  match addrHashFind u.screenHash ap with
  | some line => (line,u)
  | none =>
    let line := u.lineBrk
    let (screenHash,nodePool) := addrHashInsert u.screenHash u.nodePool ap line
    (line,{u with
      lineBrk := u.lineBrk+1
      screenHash := screenHash
      nodePool := nodePool
      lineMem := Function.update u.lineMem line {HostPairLine.zero with ap := ap}})

/-- Attribute a line without a process: from the record's cache, or by a
lookup of the flow, which then also fills the cache. -/
def attributeProcess (env : Env) (key : AddrPair) (line : HostPairLine) (hist : HistoryType) :
    HostPairLine×HistoryType :=
  if env.options.showProcesses ∧ line.processName=[] then
    if hist.procResolved then
      ({line with pid := hist.procPid,processName := hist.procName.take (procnameLength-1)},hist)
    else
      match lookupFlow env.liveTable key with
      | some pe =>
        ({line with pid := pe.pid,processName := pe.name.take (procnameLength-1)},
          hist.setProcess pe)
      | none => (line,hist)
  else (line,hist)

/-- Add the totals and the slots of a record to a line. -/
def HostPairLine.addFlow (pos : Slot) (hist : HistoryType) (line : HostPairLine) : HostPairLine :=
  accumulate pos hist {line with
    totalSent := line.totalSent+hist.totalSent
    totalRecv := line.totalRecv+hist.totalRecv}

/-- The body of the loop of `analyse_data` over the history. -/
def analyseFlow (env : Env) (u : Ui) (node : Node AddrPair ℕ) : Ui :=
  let (screenLine,u) := findOrCreateLine (aggregate env.options node.key) u
  let (line,hist) := attributeProcess env node.key (u.lineMem screenLine) (u.histMem node.record)
  {u with
    histMem := Function.update u.histMem node.record hist
    lineMem := Function.update u.lineMem screenLine (line.addFlow u.historyPos hist)}

/-- Multiply the sums of a line by the inverse lengths of the divisions. -/
def HostPairLine.scale (invHistLen : Division→ℚ) (line : HostPairLine) : HostPairLine :=
  {line with
    recv := fun j => line.recv j*invHistLen j
    sent := fun j => line.sent j*invHistLen j}

/-- Store the name to sort by; a failed conversion leaves the old one. -/
def HostPairLine.cacheName (o : OptionsT) (hostName : AddressFamily→In6Addr→Option (List Char))
    (line : HostPairLine) : HostPairLine :=
  let addr := if o.sort=.src then line.ap.src6 else line.ap.dst6
  {line with cachedHostname := (hostName line.ap.addressFamily addr).getD line.cachedHostname}

/-- `inv_hist_len`. -/
def invHistLen (u : Ui) (j : Division) : ℚ :=
  if historyLengthOf u j>0 then 1/historyLengthOf u j else 0

section Analyse

variable (qsort : (ℕ→ℕ→Bool)→List ℕ→List ℕ) (env : Env)
  (hostName : AddressFamily→In6Addr→Option (List Char))

/-- `sorted_list_insert_batch`; no items leave the list alone. -/
def sortedListInsertBatch (items : List ℕ) (u : Ui) : Ui :=
  let compare := fun a b => screenLineCompare env.options (u.lineMem a) (u.lineMem b)
  if items=[] then u else {u with screenList := qsort compare items}

/-- `make_screen_list`. -/
def makeScreenList (u : Ui) : Ui :=
  let nodes := hashItems u.screenHash
  let u := {u with lineMem := forEach (HostPairLine.scale (invHistLen u)) nodes u.lineMem}
  if env.options.freezeorder then u
  else
    let u :=
      if env.options.sort=.src ∨ env.options.sort=.dest then
        {u with lineMem := forEach (HostPairLine.cacheName env.options hostName) nodes u.lineMem}
      else u
    sortedListInsertBatch qsort env (nodes.map Node.record) u

end Analyse

/-- Conversion of a count of bytes to `int`. -/
def toInt (x : ℕ) : ℤ := Int.bmod x (2^32)

/-- The peaks after looking at one slot of the totals. -/
def peakSlot (u : Ui) (i : Slot) : Ui :=
  let recvBytes := u.historyTotals.recv i
  let sentBytes := u.historyTotals.sent i
  {u with
    peakrecv := if (recvBytes : ℤ)>u.peakrecv then toInt recvBytes else u.peakrecv
    peaksent := if (sentBytes : ℤ)>u.peaksent then toInt sentBytes else u.peaksent
    peaktotal := if ((recvBytes+sentBytes : ℕ) : ℤ)>u.peaktotal then toInt (recvBytes+sentBytes)
      else u.peaktotal}

/-- Divide the sums of the totals by the lengths of the divisions. -/
def HostPairLine.divide (hl : Division→ℚ) (line : HostPairLine) : HostPairLine :=
  {line with
    recv := fun j => if hl j>0 then line.recv j/hl j else line.recv j
    sent := fun j => if hl j>0 then line.sent j/hl j else line.sent j}

/-- `calculate_totals`. -/
def calculateTotals (u : Ui) : Ui :=
  let u := (List.finRange historyLength).foldl peakSlot u
  let totals := accumulate u.historyPos u.historyTotals u.totals
  {u with totals := totals.divide (historyLengthOf u)}

/-- `analyse_data`. -/
def analyseData (qsort : (ℕ→ℕ→Bool)→List ℕ→List ℕ) (env : Env)
    (hostName : AddressFamily→In6Addr→Option (List Char)) (u : Ui) : Ui :=
  if env.options.paused then u
  else
    let u := {u with totals := HostPairLine.zero}
    let u :=
      if env.options.freezeorder then screenHashClear u
      else screenHashReset (screenListClear u)
    let u := (hashItems u.history).foldl (analyseFlow env) u
    calculateTotals (makeScreenList qsort env hostName u)

end IftopColor.Screen
