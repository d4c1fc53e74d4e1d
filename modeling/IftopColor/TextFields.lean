import IftopColor.BoundedCopy
import IftopColor.ProcTable
import IftopColor.Resolver
import IftopColor.Screen

/-!
# Text fields of fixed size

Help messages, host names and process names are copied into arrays. A process name goes
from the socket table over the record of a flow to a line of the screen, each copy being
the source of the next one. On buffers with checked accesses, every copy but that of
`showhelp` leaves a terminator, whatever the strings are; `showhelp` leaves one for
messages that are shorter than its array.
-/

namespace IftopColor.TextFields

open NetBytes AddrHash ProcInfo PacketDirection GrowingArray ProcTable History Resolver Screen
open TextBuffer BoundedCopy

/-- `HELP_MSG_SIZE`. -/
def helpMsgSize : ℕ := 80

/-- The variables of the help message. -/
structure Help where
  /-- `helpmsg`. -/
  helpmsg : Buffer
  /-- `showhelphint`. -/
  showhelphint : Bool
  /-- `helptimer`. -/
  helptimer : ℤ
  /-- `persistenthelp`. -/
  persistenthelp : Bool

/-- `showhelp` up to its call of `tick`, at some time. -/
def showhelp (time : ℤ) (help : Help) (message : Source) : Except Fault Help := do
  let helpmsg ← strncpy helpMsgSize help.helpmsg message.size message.buf helpMsgSize
  return {help with
    helpmsg := helpmsg
    showhelphint := true
    helptimer := time
    persistenthelp := false}

/-- What `resolve` copies out, into an array of `buflen` bytes if there is one. -/
def copyOut (result : Option Buffer) (buflen : ℤ) (hostname : Source) :
    Except Fault (Option Buffer) :=
  match result with
  | none => return none
  | some result =>
    if buflen>1 then do
      let result ← copyTerminated buflen.toNat result hostname.size hostname.buf buflen.toNat
      return some result
    else return some result

/-- `sock_entry` with its array. -/
structure SockRecord where
  /-- Address family of the socket. -/
  af : AddressFamily
  /-- Transport protocol number. -/
  protocol : UInt16
  /-- Local port, host order. -/
  port : UInt16
  /-- Union of `v4` and `v6`. -/
  addr : In6Addr
  /-- Owning process. -/
  pid : ℤ
  /-- `name`. -/
  name : Buffer

/-- The entry with a text for its name. -/
def SockRecord.entry (e : SockRecord) (name : List Char) : SockEntry :=
  ⟨e.af,e.protocol,e.port,e.addr,e.pid,name⟩

/-- `proc_entry` with its array. -/
structure ProcRecord where
  /-- Process id. -/
  pid : ℤ
  /-- `name`. -/
  name : Buffer

/-- The fields of `history_type` for its process. -/
structure FlowProcess where
  /-- `proc_resolved`. -/
  procResolved : Bool
  /-- `proc_pid`. -/
  procPid : ℤ
  /-- `proc_name`. -/
  procName : Buffer

/-- The fields of `host_pair_line` for its process. -/
structure LineProcess where
  /-- `pid`. -/
  pid : ℤ
  /-- `process_name`. -/
  processName : Buffer

/-- Zeroed memory read as these fields. -/
def FlowProcess.zero : FlowProcess := ⟨false,0,fun _ => nul⟩

/-- Zeroed memory read as these fields. -/
def LineProcess.zero : LineProcess := ⟨0,fun _ => nul⟩

/-- A call of `table_add`. -/
structure AddCall where
  /-- Address family. -/
  af : AddressFamily
  /-- Transport protocol number. -/
  protocol : UInt16
  /-- Local port. -/
  port : UInt16
  /-- Local address. -/
  addr : In6Addr
  /-- Process id. -/
  pid : ℤ
  /-- Process name. -/
  name : Source
  /-- What the memory for the name holds before. -/
  memory : Buffer

/-- `table_add`. -/
def tableAdd (a : Allocator) (t : Growing SockRecord) (call : AddCall) :
    Except Fault (Growing SockRecord) :=
  if t.Grants a sockLayout then do
    let name ← copyTerminated procinfoNameMax call.memory call.name.size call.name.buf
      procinfoNameMax
    return t.append a sockLayout
      ⟨call.af,call.protocol,call.port,unionAddr call.af call.addr,call.pid,name⟩
  else return .empty

/-- `table_find`, with the entry to be filled. -/
def tableFind (t : List SockRecord) (af : AddressFamily) (addr : In6Addr)
    (port protocol : UInt16) (out : ProcRecord) : Except Fault (Option ProcRecord) :=
  match t.find? fun e => entryMatches (e.entry []) af addr port protocol with
  | none => return none
  | some e => do
    let name ← strncpy procinfoNameMax out.name procinfoNameMax e.name procinfoNameMax
    return some ⟨e.pid,name⟩

/-- The lookups for the two endpoints of a flow in one family. -/
def lookupEndpoints (t : List SockRecord) (af : AddressFamily) (ap : AddrPair)
    (pe : ProcRecord) : Except Fault (Option ProcRecord) := do
  match ← tableFind t af ap.src6 ap.srcPort ap.protocol pe with
  | some pe => return some pe
  | none => tableFind t af ap.dst6 ap.dstPort ap.protocol pe

/-- The lookups of `handle_ip_packet` and `analyse_data`. -/
def lookupFlow (t : List SockRecord) (ap : AddrPair) (pe : ProcRecord) :
    Except Fault (Option ProcRecord) :=
  match ap.addressFamily with
  | .inet => lookupEndpoints t .inet ap pe
  | .inet6 => lookupEndpoints t .inet6 ap pe
  | .unspec => return none

/-- Remember the process found for a flow. -/
def setProcess (hist : FlowProcess) (pe : ProcRecord) : Except Fault FlowProcess := do
  let procName ← copyTerminated procinfoNameMax hist.procName procinfoNameMax pe.name
    procinfoNameMax
  return ⟨true,pe.pid,procName⟩

/-- The process of a new record in `handle_ip_packet`. -/
def newProcess (showProcesses : Bool) (t : List SockRecord) (ap : AddrPair) (pe : ProcRecord) :
    Except Fault FlowProcess :=
  if showProcesses ∧ ¬FlowProcess.zero.procResolved then do
    match ← lookupFlow t ap pe with
    | some pe => setProcess .zero pe
    | none => return .zero
  else return .zero

/-- The name of a line, from another array of a name. -/
def setLine (line : LineProcess) (pid : ℤ) (name : Buffer) : Except Fault LineProcess := do
  let processName ← copyTerminated procnameLength line.processName procinfoNameMax name
    procnameLength
  return ⟨pid,processName⟩

/-- The process of a line in `analyse_data`. -/
def attributeLine (showProcesses : Bool) (t : List SockRecord) (key : AddrPair)
    (line : LineProcess) (hist : FlowProcess) (pe : ProcRecord) :
    Except Fault (LineProcess×FlowProcess) :=
  if showProcesses=false then return (line,hist)
  else do
    let first ← get procnameLength line.processName 0
    if first≠nul then return (line,hist)
    else if hist.procResolved then do
      let line ← setLine line hist.procPid hist.procName
      return (line,hist)
    else
      match ← lookupFlow t key pe with
      | some pe => do
        let line ← setLine line pe.pid pe.name
        let hist ← setProcess hist pe
        return (line,hist)
      | none => return (line,hist)

/-- The live socket table, the records of flows and the lines of the screen. -/
structure Names where
  /-- `live_table`. -/
  table : Growing SockRecord
  /-- Memory of the flow records. -/
  records : ℕ→FlowProcess
  /-- Memory of the lines. -/
  lines : ℕ→LineProcess

/-- What happens to the names. -/
inductive Event where
  /-- A refresh builds a table and publishes it. -/
  | refresh (calls : List AddCall)
  /-- A packet of a new flow. -/
  | packet (record : ℕ) (ap : AddrPair) (showProcesses : Bool) (pe : ProcRecord)
  /-- A new line. -/
  | line (line : ℕ)
  /-- The loop of `analyse_data` comes to a flow and its line. -/
  | analyse (record line : ℕ) (key : AddrPair) (showProcesses : Bool) (pe : ProcRecord)

/-- The effect of an event. -/
def step (a : Allocator) (s : Names) : Event→Except Fault Names
  | .refresh calls => do
    let table ← calls.foldlM (tableAdd a) .empty
    return {s with table := table}
  | .packet record ap showProcesses pe => do
    let hist ← newProcess showProcesses s.table.entries ap pe
    return {s with records := Function.update s.records record hist}
  | .line line => return {s with lines := Function.update s.lines line .zero}
  | .analyse record line key showProcesses pe => do
    let (shown,hist) ← attributeLine showProcesses s.table.entries key (s.lines line)
      (s.records record) pe
    return {s with
      records := Function.update s.records record hist
      lines := Function.update s.lines line shown}

/-- No name is known at first. -/
def start : Names := ⟨.empty,fun _ => .zero,fun _ => .zero⟩

/-- The names after a sequence of events. -/
def run (a : Allocator) (es : List Event) : Except Fault Names := es.foldlM (step a) start

/-- The entry of a call, with the whole of the name that it was given. -/
def AddCall.entry (call : AddCall) : SockEntry :=
  ⟨call.af,call.protocol,call.port,unionAddr call.af call.addr,call.pid,call.name.text⟩

/-- The processes that the names stand for, with the names that were given to `table_add`. -/
structure Origins where
  /-- Of the sockets. -/
  table : Growing SockEntry
  /-- Of the flows, if there is one. -/
  records : ℕ→Option ProcEntry
  /-- Of the lines; the name is empty if there is none. -/
  lines : ℕ→ProcEntry

/-- The process of a line without a name is that of its flow, or one that owns a socket of it. -/
def attributeOrigin (showProcesses : Bool) (t : List SockEntry) (key : AddrPair) (line : ProcEntry)
    (hist : Option ProcEntry) : ProcEntry×Option ProcEntry :=
  if showProcesses ∧ line.name=[] then
    match hist.or (ProcInfo.lookupFlow t key) with
    | some pe => (pe,some pe)
    | none => (line,none)
  else (line,hist)

/-- The processes after an event. -/
def originStep (a : Allocator) (o : Origins) : Event→Origins
  | .refresh calls =>
    {o with table := (calls.map AddCall.entry).foldl (Growing.append a sockLayout) .empty}
  | .packet record ap showProcesses _ =>
    let found := if showProcesses then ProcInfo.lookupFlow o.table.entries ap else none
    {o with records := Function.update o.records record found}
  | .line line => {o with lines := Function.update o.lines line ⟨0,[]⟩}
  | .analyse record line key showProcesses _ =>
    let (shown,hist) := attributeOrigin showProcesses o.table.entries key (o.lines line)
      (o.records record)
    {o with
      records := Function.update o.records record hist
      lines := Function.update o.lines line shown}

/-- The processes after a sequence of events. -/
def origins (a : Allocator) (es : List Event) : Origins :=
  es.foldl (originStep a) ⟨.empty,fun _ => none,fun _ => ⟨0,[]⟩⟩

/-- The entry is that of a socket and keeps its name. -/
structure SockKept (e : SockRecord) (o : SockEntry) : Prop where
  /-- All but the name is the same. -/
  entry : e.entry o.name=o
  /-- `sock_entry.name`. -/
  name : Kept procinfoNameMax e.name o.name

/-- The entry is that of a process and keeps its name. -/
structure ProcKept (pe : ProcRecord) (o : ProcEntry) : Prop where
  /-- The process. -/
  pid : pe.pid=o.pid
  /-- `proc_entry.name`. -/
  name : Kept procinfoNameMax pe.name o.name

/-- The record is that of a flow with a process and keeps its name. -/
structure FlowKept (hist : FlowProcess) (o : ProcEntry) : Prop where
  /-- There is a process. -/
  resolved : hist.procResolved=true
  /-- The process. -/
  pid : hist.procPid=o.pid
  /-- `history_type.proc_name`. -/
  name : Kept procinfoNameMax hist.procName o.name

/-- The line shows a process and keeps its name. -/
structure LineKept (line : LineProcess) (o : ProcEntry) : Prop where
  /-- The process. -/
  pid : line.pid=o.pid
  /-- `host_pair_line.process_name`. -/
  name : Kept procnameLength line.processName o.name

/-- A record without process, or one that keeps its name. -/
def RecordKept (hist : FlowProcess) : Option ProcEntry→Prop
  | none => hist.procResolved=false
  | some o => FlowKept hist o

/-- All fields for names keep the names that they come from. -/
structure NamesKept (s : Names) (o : Origins) : Prop where
  /-- The entries of the socket table. -/
  sockets : s.table.Related SockKept o.table
  /-- What a lookup fills in, whatever was there before. -/
  found : ∀ af addr port protocol out,∃ pe,
    tableFind s.table.entries af addr port protocol out=.ok pe ∧
      Option.Rel ProcKept pe (ProcInfo.tableFind o.table.entries af addr port protocol)
  /-- The records of flows. -/
  records : ∀ i,RecordKept (s.records i) (o.records i)
  /-- The lines. -/
  lines : ∀ i,LineKept (s.lines i) (o.lines i)

/-- Every copy keeps its string: that of the help message, that of the host name and, after any
sequence of events, those of the names of processes. -/
structure FieldsKept (help : Help) (message : Source) (result : Buffer) (buflen : ℤ)
    (hostname : Source) (a : Allocator) (es : List Event) : Prop where
  /-- `helpmsg`, at any time. -/
  help : ∀ time,∃ shown,showhelp time help message=.ok shown ∧
    Kept helpMsgSize shown.helpmsg message.text
  /-- The array of the caller of `resolve`. -/
  host : ∃ buf,copyOut (some result) buflen hostname=.ok (some buf) ∧
    Kept buflen.toNat buf hostname.text
  /-- The names of processes. -/
  names : ∃ s,run a es=.ok s ∧ NamesKept s (origins a es)

variable {a : Allocator} {t : List SockRecord} {o : List SockEntry}

/-- The message is kept if it is shorter than the array. -/
theorem showhelp_kept_iff (time : ℤ) (help : Help) (message : Source) :
    (∃ shown,showhelp time help message=.ok shown ∧
      Kept helpMsgSize shown.helpmsg message.text) ↔ message.text.length<helpMsgSize := by
  rw [←strncpy_kept_iff message.holds help.helpmsg,showhelp]
  cases strncpy helpMsgSize help.helpmsg message.size message.buf helpMsgSize with
  | error e => simp [bind,Except.bind]
  | ok buf => simp [pure,Except.pure]

/-- The host name is kept in an array with room for a character. -/
theorem copyOut_kept (result : Buffer) {buflen : ℤ} (h : 1<buflen) (hostname : Source) :
    ∃ buf,copyOut (some result) buflen hostname=.ok (some buf) ∧
      Kept buflen.toNat buf hostname.text := by
  obtain ⟨buf,hbuf,hk⟩ := copyTerminated_kept hostname.holds result (by omega : 0<buflen.toNat)
  refine ⟨buf,?_,hk⟩
  simp only [copyOut,if_pos h,hbuf,ok_bind]
  rfl

/-- The entry of a call, with its array. -/
def AddCall.record (call : AddCall) (name : Buffer) : SockRecord :=
  ⟨call.af,call.protocol,call.port,unionAddr call.af call.addr,call.pid,name⟩

/-- `table_add` keeps the names of the table and the one that it is given. -/
theorem tableAdd_kept {t : Growing SockRecord} {o : Growing SockEntry} (h : t.Related SockKept o)
    (call : AddCall) {x : SockEntry}
    (hx : ∀ buf,Kept procinfoNameMax buf call.name.text→SockKept (call.record buf) x) :
    ∃ t',tableAdd a t call=.ok t' ∧ t'.Related SockKept (o.append a sockLayout x) := by
  unfold tableAdd
  by_cases hg : t.Grants a sockLayout
  · obtain ⟨buf,hbuf,hk⟩ := copyTerminated_kept call.name.holds call.memory
      (by decide : 0<procinfoNameMax)
    refine ⟨t.append a sockLayout (call.record buf),?_,h.append (hx buf hk)⟩
    rw [if_pos hg,hbuf]
    rfl
  · have hg' : ¬o.Grants a sockLayout := by
      unfold Growing.Grants
      rwa [←h.entries.length_eq,←h.cap]
    refine ⟨.empty,by rw [if_neg hg]; rfl,?_⟩
    rw [Growing.append_of_not_grants hg']
    exact ⟨.nil,rfl⟩

/-- The calls of a refresh keep the names of sockets. -/
theorem foldlM_tableAdd_kept (calls : List AddCall) {t : Growing SockRecord}
    {o : Growing SockEntry} (h : t.Related SockKept o) :
    ∃ t',calls.foldlM (tableAdd a) t=.ok t' ∧
      t'.Related SockKept ((calls.map AddCall.entry).foldl (Growing.append a sockLayout) o) := by
  induction calls generalizing t o with
  | nil => exact ⟨t,rfl,h⟩
  | cons call calls ih =>
    obtain ⟨t₁,h₁,hr⟩ := @tableAdd_kept a t o h call call.entry fun _ hk => ⟨rfl,hk⟩
    obtain ⟨t',h',hr'⟩ := ih hr
    refine ⟨t',?_,hr'⟩
    rw [List.foldlM_cons,h₁,ok_bind,h']

/-- Two related lists have the same first match. -/
theorem find_related {α β : Type} {R : α→β→Prop} {xs : List α} {ys : List β} {p : α→Bool}
    {q : β→Bool} (h : List.Forall₂ R xs ys) (hpq : ∀ x y,R x y→p x=q y) :
    Option.Rel R (xs.find? p) (ys.find? q) := by
  induction h with
  | nil => exact .none
  | @cons x y xs ys hxy _ ih =>
    have he := hpq x y hxy
    cases hp : p x with
    | true =>
      rw [List.find?_cons_of_pos hp,List.find?_cons_of_pos (he ▸ hp)]
      exact .some hxy
    | false =>
      rw [List.find?_cons_of_neg (by simp [hp]),List.find?_cons_of_neg (by simp [←he,hp])]
      exact ih

/-- A match does not depend on the name. -/
theorem entryMatches_entry (e : SockRecord) (name name' : List Char) (af : AddressFamily)
    (addr : In6Addr) (port protocol : UInt16) :
    entryMatches (e.entry name) af addr port protocol=
      entryMatches (e.entry name') af addr port protocol := rfl

/-- `table_find` keeps the name of the entry that it finds. -/
theorem tableFind_kept (h : List.Forall₂ SockKept t o) (af : AddressFamily) (addr : In6Addr)
    (port protocol : UInt16) (out : ProcRecord) :
    ∃ pe,tableFind t af addr port protocol out=.ok pe ∧
      Option.Rel ProcKept pe (ProcInfo.tableFind o af addr port protocol) := by
  have hmatch : ∀ e x,SockKept e x→entryMatches (e.entry []) af addr port protocol=
      entryMatches x af addr port protocol := by
    intro e x hk
    rw [←hk.entry]
    exact entryMatches_entry e [] x.name af addr port protocol
  have hfind := find_related h hmatch
  unfold tableFind ProcInfo.tableFind
  generalize t.find? (fun e => entryMatches (e.entry []) af addr port protocol)=e at hfind ⊢
  generalize o.find? (fun e => entryMatches e af addr port protocol)=x at hfind ⊢
  cases hfind with
  | none => exact ⟨none,rfl,.none⟩
  | @some e x hk =>
    obtain ⟨buf,hbuf,hname⟩ := hk.name.strncpy out.name (by decide)
    refine ⟨some ⟨e.pid,buf⟩,?_,.some ⟨congrArg SockEntry.pid hk.entry,hname⟩⟩
    simp only [hbuf,ok_bind]
    rfl

/-- The lookups of a flow keep the name that they find. -/
theorem lookupFlow_kept (h : List.Forall₂ SockKept t o) (ap : AddrPair) (pe : ProcRecord) :
    ∃ found,lookupFlow t ap pe=.ok found ∧ Option.Rel ProcKept found (ProcInfo.lookupFlow o ap) := by
  have hboth : ∀ af,∃ found,lookupEndpoints t af ap pe=.ok found ∧
      Option.Rel ProcKept found ((procinfoLookup o af ap.src6 ap.srcPort ap.protocol).or
        (procinfoLookup o af ap.dst6 ap.dstPort ap.protocol)) := by
    intro af
    obtain ⟨src,hsrc,hk⟩ := tableFind_kept h af ap.src6 ap.srcPort ap.protocol pe
    simp only [lookupEndpoints,hsrc,ok_bind,procinfoLookup]
    generalize ProcInfo.tableFind o af ap.src6 ap.srcPort ap.protocol=x at hk ⊢
    cases hk with
    | none => exact tableFind_kept h af ap.dst6 ap.dstPort ap.protocol pe
    | some hk => exact ⟨_,rfl,.some hk⟩
  unfold lookupFlow ProcInfo.lookupFlow
  cases ap.addressFamily with
  | inet => exact hboth .inet
  | inet6 => exact hboth .inet6
  | unspec => exact ⟨none,rfl,.none⟩

/-- A record keeps the name of the process that was found. -/
theorem setProcess_kept {pe : ProcRecord} {x : ProcEntry} (h : ProcKept pe x)
    (hist : FlowProcess) : ∃ hist',setProcess hist pe=.ok hist' ∧ FlowKept hist' x := by
  obtain ⟨buf,hbuf,hk⟩ := h.name.copyTerminated hist.procName (by decide) (Nat.le_refl _)
  refine ⟨⟨true,pe.pid,buf⟩,?_,rfl,h.pid,hk⟩
  rw [setProcess,hbuf]
  rfl

/-- A line keeps the name that it is given. -/
theorem setLine_kept {name : Buffer} {x : ProcEntry} (h : Kept procinfoNameMax name x.name)
    (line : LineProcess) : ∃ line',setLine line x.pid name=.ok line' ∧ LineKept line' x := by
  have hle : procnameLength≤procinfoNameMax := by decide
  obtain ⟨buf,hbuf,hk⟩ := h.copyTerminated line.processName (by decide) hle
  refine ⟨⟨x.pid,buf⟩,?_,rfl,hk⟩
  rw [setLine,hbuf]
  rfl

/-- A new record keeps the name of a process that owns a socket of the flow. -/
theorem newProcess_kept (h : List.Forall₂ SockKept t o) (showProcesses : Bool) (ap : AddrPair)
    (pe : ProcRecord) :
    ∃ hist,newProcess showProcesses t ap pe=.ok hist ∧
      RecordKept hist (if showProcesses then ProcInfo.lookupFlow o ap else none) := by
  unfold newProcess
  cases showProcesses with
  | false => exact ⟨.zero,rfl,rfl⟩
  | true =>
    obtain ⟨found,hf,hk⟩ := lookupFlow_kept h ap pe
    simp only [FlowProcess.zero,Bool.false_eq_true,not_false_eq_true,and_self,if_true,hf,ok_bind]
    generalize ProcInfo.lookupFlow o ap=x at hk ⊢
    cases hk with
    | none => exact ⟨_,rfl,rfl⟩
    | some hk => exact setProcess_kept hk _

/-- A line without a name gets that of its flow, and every field keeps the name it comes from. -/
theorem attributeLine_kept (h : List.Forall₂ SockKept t o) (showProcesses : Bool)
    (key : AddrPair) {line : LineProcess} {hist : FlowProcess} (pe : ProcRecord) {x : ProcEntry}
    {y : Option ProcEntry} (hline : LineKept line x) (hhist : RecordKept hist y) :
    ∃ shown hist',attributeLine showProcesses t key line hist pe=.ok (shown,hist') ∧
      LineKept shown (attributeOrigin showProcesses o key x y).1 ∧
      RecordKept hist' (attributeOrigin showProcesses o key x y).2 := by
  have hfirst := hline.name.first_iff (by decide)
  unfold attributeLine attributeOrigin
  cases showProcesses with
  | false => exact ⟨line,hist,rfl,hline,hhist⟩
  | true =>
    have hget : get procnameLength line.processName 0=.ok (line.processName 0) :=
      get_ok (by decide)
    simp only [Bool.true_eq_false,if_false,hget,ok_bind,true_and]
    by_cases hname : x.name=[]
    · rw [if_neg (not_not.mpr (hfirst.mpr hname)),if_pos hname]
      cases y with
      | some y =>
        obtain ⟨hres,hpid,hk⟩ := hhist
        obtain ⟨shown,hs,hsk⟩ := setLine_kept hk line
        simp only [hres,if_true,hpid,hs,ok_bind]
        exact ⟨shown,hist,rfl,hsk,hres,hpid,hk⟩
      | none =>
        have hres : hist.procResolved=false := hhist
        obtain ⟨found,hf,hk⟩ := lookupFlow_kept h key pe
        simp only [hres,Bool.false_eq_true,if_false,hf,ok_bind,Option.none_or]
        generalize ProcInfo.lookupFlow o key=y at hk ⊢
        cases hk with
        | none => exact ⟨line,hist,rfl,hline,hres⟩
        | @some found z hk =>
          obtain ⟨shown,hs,hsk⟩ := setLine_kept hk.name line
          obtain ⟨hist',hh,hhk⟩ := setProcess_kept hk hist
          simp only [hk.pid,hs,hh,ok_bind]
          exact ⟨shown,hist',rfl,hsk,hhk⟩
    · rw [if_pos (mt hfirst.mp hname),if_neg hname]
      exact ⟨line,hist,rfl,hline,hhist⟩

/-- A zeroed line keeps an empty name. -/
theorem lineKept_zero : LineKept .zero ⟨0,[]⟩ where
  pid := rfl
  name := (kept_whole_iff (by decide)).mpr ⟨by decide,by simp,rfl,by simp⟩

/-- Replacing one of several fields by one that keeps its text. -/
theorem update_kept {α β : Type} {R : α→β→Prop} {f : ℕ→α} {g : ℕ→β} (h : ∀ i,R (f i) (g i))
    {x : α} {y : β} (hxy : R x y) (i j : ℕ) :
    R (Function.update f i x j) (Function.update g i y j) := by
  by_cases hj : j=i
  · rw [hj,Function.update_self,Function.update_self]
    exact hxy
  · rw [Function.update_of_ne hj,Function.update_of_ne hj]
    exact h j

/-- The lookups follow from the entries of the table. -/
theorem namesKept_of {s : Names} {o : Origins} (hs : s.table.Related SockKept o.table)
    (hr : ∀ i,RecordKept (s.records i) (o.records i)) (hl : ∀ i,LineKept (s.lines i) (o.lines i)) :
    NamesKept s o where
  sockets := hs
  found := tableFind_kept hs.entries
  records := hr
  lines := hl

/-- Every event stays within its fields and keeps the names. -/
theorem step_kept {s : Names} {o : Origins} (h : NamesKept s o) (e : Event) :
    ∃ s',step a s e=.ok s' ∧ NamesKept s' (originStep a o e) := by
  cases e with
  | refresh calls =>
    have hempty : (Growing.empty : Growing SockRecord).Related SockKept .empty := ⟨.nil,rfl⟩
    obtain ⟨table,ht,hk⟩ := @foldlM_tableAdd_kept a calls _ _ hempty
    refine ⟨{s with table := table},?_,namesKept_of hk h.records h.lines⟩
    simp only [step,ht,ok_bind]
    rfl
  | packet record ap showProcesses pe =>
    obtain ⟨hist,hh,hk⟩ := newProcess_kept h.sockets.entries showProcesses ap pe
    refine ⟨{s with records := Function.update s.records record hist},?_,
      namesKept_of h.sockets (update_kept h.records hk record) h.lines⟩
    simp only [step,hh,ok_bind]
    rfl
  | line line =>
    exact ⟨{s with lines := Function.update s.lines line .zero},rfl,
      namesKept_of h.sockets h.records (update_kept h.lines lineKept_zero line)⟩
  | analyse record line key showProcesses pe =>
    obtain ⟨shown,hist,hh,hshown,hhist⟩ := attributeLine_kept h.sockets.entries showProcesses key pe
      (h.lines line) (h.records record)
    refine ⟨{s with
      records := Function.update s.records record hist
      lines := Function.update s.lines line shown},?_,
      namesKept_of h.sockets (update_kept h.records hhist record)
        (update_kept h.lines hshown line)⟩
    simp only [step,hh,ok_bind]
    rfl

/-- Every sequence of events keeps names. -/
theorem foldlM_kept (es : List Event) {s : Names} {o : Origins} (h : NamesKept s o) :
    ∃ s',es.foldlM (step a) s=.ok s' ∧ NamesKept s' (es.foldl (originStep a) o) := by
  induction es generalizing s o with
  | nil => exact ⟨s,rfl,h⟩
  | cons e es ih =>
    obtain ⟨s₁,h₁,hk⟩ := @step_kept a s o h e
    obtain ⟨s',h',hk'⟩ := ih hk
    refine ⟨s',?_,hk'⟩
    rw [List.foldlM_cons,h₁,ok_bind,h']

/-- A run does not fail, and keeps all names. -/
theorem run_kept (a : Allocator) (es : List Event) :
    ∃ s,run a es=.ok s ∧ NamesKept s (origins a es) :=
  foldlM_kept es (namesKept_of ⟨.nil,rfl⟩ (fun _ => rfl) fun _ => lineKept_zero)

/-- A record that keeps a name keeps what the array has room for of it. -/
theorem FlowKept.take {hist : FlowProcess} {x : ProcEntry} (h : FlowKept hist x) :
    FlowKept hist ⟨x.pid,x.name.take (procinfoNameMax-1)⟩ where
  resolved := h.resolved
  pid := h.pid
  name := (kept_take_iff (by decide)).mpr h.name

/-- A line that keeps the name of a process keeps what is copied of it. -/
theorem LineKept.take {line : LineProcess} {x : ProcEntry} (h : LineKept line x) :
    LineKept line ⟨x.pid,x.name.take (procnameLength-1)⟩ where
  pid := h.pid
  name := (kept_take_iff (by decide)).mpr h.name

/-- The process of a record, if there is one. -/
def recordOrigin (hist : HistoryType) : Option ProcEntry :=
  if hist.procResolved then some ⟨hist.procPid,hist.procName⟩ else none

/-- The process of a line. -/
def lineOrigin (line : HostPairLine) : ProcEntry := ⟨line.pid,line.processName⟩

/-- The text that `resolve` gives is the one in the array. -/
theorem copyOut_copyResult (result : Buffer) {buflen : ℤ} (h : 1<buflen) (hostname : Source) :
    ∃ buf text,copyOut (some result) buflen hostname=.ok (some buf) ∧
      copyResult buflen hostname.text=some text ∧ Holds buflen.toNat buf text := by
  obtain ⟨buf,hbuf,hk⟩ := copyOut_kept result h hostname
  refine ⟨buf,_,hbuf,if_pos h,?_⟩
  have hsub : (buflen-1).toNat=buflen.toNat-1 := by omega
  rw [hsub]
  exact (kept_iff (by omega)).mp hk

/-- The table on texts is the one with the arrays. -/
theorem tableAdd_tableAdd {t : Growing SockRecord} {o : Growing SockEntry}
    (h : t.Related SockKept o) (call : AddCall) :
    ∃ t',tableAdd a t call=.ok t' ∧ t'.Related SockKept
      (ProcTable.tableAdd a o call.af call.protocol call.port call.addr call.pid call.name.text) :=
  tableAdd_kept h call fun _ hk => ⟨rfl,(kept_take_iff (by decide)).mpr hk⟩

/-- A new record on texts is the one with the array. -/
theorem newProcess_newRecord (env : Env) (h : List.Forall₂ SockKept t env.liveTable) (ap : AddrPair)
    (pe : ProcRecord) :
    ∃ hist,newProcess env.options.showProcesses t ap pe=.ok hist ∧
      RecordKept hist (recordOrigin (newRecord env ap)) := by
  obtain ⟨hist,hh,hk⟩ := newProcess_kept h env.options.showProcesses ap pe
  refine ⟨hist,hh,?_⟩
  unfold newRecord
  cases hs : env.options.showProcesses with
  | false =>
    rw [hs] at hk
    exact hk
  | true =>
    rw [hs,if_pos rfl] at hk
    rw [if_pos ⟨rfl,by decide⟩]
    cases hl : ProcInfo.lookupFlow env.liveTable ap with
    | none =>
      rw [hl] at hk
      exact hk
    | some x =>
      rw [hl] at hk
      exact FlowKept.take hk

/-- A line and its flow on texts are those with the arrays. -/
theorem attributeLine_attributeProcess (env : Env) (h : List.Forall₂ SockKept t env.liveTable)
    (key : AddrPair) {line : LineProcess} {hist : FlowProcess} (pe : ProcRecord)
    {x : HostPairLine} {y : HistoryType} (hline : LineKept line (lineOrigin x))
    (hhist : RecordKept hist (recordOrigin y)) :
    ∃ shown hist',attributeLine env.options.showProcesses t key line hist pe=.ok (shown,hist') ∧
      LineKept shown (lineOrigin (attributeProcess env key x y).1) ∧
      RecordKept hist' (recordOrigin (attributeProcess env key x y).2) := by
  obtain ⟨shown,hist',hh,hs,hk⟩ := attributeLine_kept h env.options.showProcesses key pe hline hhist
  refine ⟨shown,hist',hh,?_⟩
  unfold attributeOrigin at hs hk
  unfold attributeProcess
  by_cases hname : env.options.showProcesses=true ∧ x.processName=[]
  · rw [if_pos hname]
    have hname' : env.options.showProcesses=true ∧ (lineOrigin x).name=[] := hname
    rw [if_pos hname'] at hs hk
    cases hr : y.procResolved with
    | true =>
      simp only [recordOrigin,hr,if_true,Option.some_or] at hs hk ⊢
      exact ⟨hs.take,hk⟩
    | false =>
      simp only [recordOrigin,hr,Bool.false_eq_true,if_false,Option.none_or] at hs hk ⊢
      cases hl : ProcInfo.lookupFlow env.liveTable key with
      | none =>
        simp only [hl] at hs hk
        simp only [hr,Bool.false_eq_true,if_false]
        exact ⟨hs,hk⟩
      | some z =>
        simp only [hl] at hs hk
        exact ⟨hs.take,FlowKept.take hk⟩
  · rw [if_neg hname]
    have hname' : ¬(env.options.showProcesses=true ∧ (lineOrigin x).name=[]) := hname
    rw [if_neg hname'] at hs hk
    exact ⟨hs,hk⟩

/-- Whatever was in the fields before, and for all strings and sequences of events, the copies keep
their strings if and only if the help message is shorter than its array. -/
theorem fields_kept_iff (help : Help) (message : Source) (result : Buffer) {buflen : ℤ}
    (h : 1<buflen) (hostname : Source) (a : Allocator) (es : List Event) :
    FieldsKept help message result buflen hostname a es ↔ message.text.length<helpMsgSize := by
  constructor
  · intro hk
    exact (showhelp_kept_iff 0 help message).mp (hk.help 0)
  · intro hlen
    exact ⟨fun time => (showhelp_kept_iff time help message).mpr hlen,copyOut_kept result h hostname,
      run_kept a es⟩

/-- A string that has no terminator among its characters. -/
def literal (text : List Char) (h : (text.all fun c => c≠nul)=true) : Source :=
  .ofList text fun c hc => of_decide_eq_true (List.all_eq_true.mp h c hc)

/-- No help message is shown. -/
def noHelp : Help := ⟨fun _ => nul,false,0,false⟩

/-- A process with a name as long as its arrays is attributed to a flow and to its line. -/
def longName : List Event :=
  [.refresh [⟨.inet,6,22,fun _ => 0,100,literal (List.replicate 64 'n') rfl,fun _ => 'x'⟩],
    .packet 0 ⟨.inet,6,22,fun _ => 0,80,fun _ => 0⟩ true ⟨0,fun _ => 'x'⟩,.line 0,
    .analyse 0 0 ⟨.inet,6,22,fun _ => 0,80,fun _ => 0⟩ true ⟨0,fun _ => 'x'⟩]

/-- A message of 79 characters, and names that fill their arrays. -/
theorem fields_kept_iff_full :
    FieldsKept noHelp (literal (List.replicate 79 'm') rfl) (fun _ => 'x') 16
        (literal "name.example.net".toList rfl) .ample longName ↔
      (List.replicate 79 'm').length<helpMsgSize :=
  fields_kept_iff noHelp (literal (List.replicate 79 'm') rfl) (fun _ => 'x') (by decide)
    (literal "name.example.net".toList rfl) .ample longName

/-- The message for a filter with a host of 65 characters that cannot be resolved. -/
def unknownHost : Source :=
  literal ("unknown host '".toList++List.replicate 65 'a'++"'".toList) rfl

/-- The message about this host fills the array without a terminator. -/
theorem unknown_host_not_kept :
    ¬FieldsKept noHelp unknownHost (fun _ => 'x') 16 (literal "localhost".toList rfl) .ample [] := by
  intro h
  have hlen := (showhelp_kept_iff 0 noHelp unknownHost).mp (h.help 0)
  exact absurd hlen (by decide)

end IftopColor.TextFields
