import IftopColor.CaptureBounds
import IftopColor.CommandLine
import IftopColor.CsvExport
import IftopColor.DisplayMemory
import IftopColor.ProcessNames
import IftopColor.ScreenText

/-!
# A run in export mode

Two threads call `tick`: the capture thread for the frames of an Ethernet and `export_loop` after
every sleep. A call that is due prints the screen lines to the standard output. Three things can go
wrong. A frame may have been captured too short for what its handler reads. A flow without an
address family has no text, and `sprint_addr` leaves its buffer as it was. And a call of
`export_loop` that is not due goes on to `ui_tick`, which paints a screen that was never set up: the
row for the counters has no columns and a single byte. As long as nothing of this happens the output
is a stream of documents, or one table, with the rates of the packets at every call that was due.
-/

namespace IftopColor.ExportRun

open ReadLog Reads LinkLayer CaptureBounds
open RecordStore AddrHash Options OptionsMake PacketDirection History FlowAccounting Screen
open ScreenTotals ScreenList TickClock SlotTimes BusiestRows DisplayMemory ProcessNames
open Json Export CsvExport ScreenText TextBuffer CommandLine

/-- Calls of the two threads: `tick`, with `print` for those of `export_loop`, and the handler for a
captured frame. That of an Ethernet has called `tick` before. -/
inductive ExportEvent where
  | tick (print : Bool) (tm : Tm) (a : TickArgs)
  | frame (l : LinkEnv) (env : Env) (link : LinkType) (caplen : ℕ) (packet : ℕ→UInt8)

/-- What can go wrong. -/
inductive Misuse where
  /-- A read behind the captured bytes. -/
  | uncaptured
  /-- A text of an address that was not written for it. -/
  | unwritten
  /-- An access outside of the buffer for a row. -/
  | row (fault : Fault)

/-- The options of the program, which do not change in export mode. -/
def under (o : AllOptions) (env : Env) : Env := {env with options := o.toOptionsT}

/-- A call of `tick` with these options. -/
def TickArgs.under (o : AllOptions) (a : TickArgs) : TickArgs :=
  {a with env := ExportRun.under o a.env}

/-- What the call does to the history and the screen lines. A handler may find no IP packet. -/
def ExportEvent.calls (o : AllOptions) : ExportEvent→List ClockEvent
  | .tick _ _ a => [.tick (TickArgs.under o a)]
  | .frame l env link caplen packet =>
    match value (handler l caplen link) packet with
    | none => []
    | some (i,dir) => [.packet (ExportRun.under o env) (fun j => packet (i+j)) dir]

/-- The program in export mode. -/
structure Exporting where
  /-- The history and the screen lines. -/
  clocked : Clocked
  /-- `csv_header_printed`. -/
  csvHeaderPrinted : Bool
  /-- What was printed. -/
  out : List Char

/-- `sprint_addr` for all lines: `inet_ntop` writes no text for an address without a family. -/
def sprintAddrs (lines : List HostPairLine) : Except Misuse Unit :=
  lines.forM fun line => if line.ap.addressFamily=.unspec then .error .unwritten else .ok ()

/-- `export_print`. -/
def exportPrint (ntop : Ntop) (mode : ExportMode) (tm : Tm) (o : AllOptions) (u : Ui)
    (csvHeaderPrinted : Bool) : Except Misuse (List Char×Bool) :=
  match mode with
  | .json => do
    sprintAddrs (screenLines u)
    return (exportPrintJson ntop tm o u,csvHeaderPrinted)
  | .csv => do
    sprintAddrs (screenLines u)
    return exportPrintCsv ntop tm o u csvHeaderPrinted
  | .none => return ([],csvHeaderPrinted)

/-- The counters as `ui_print` finds them. -/
def shownCounters (u : Ui) : ScreenText.Counters where
  totalSent := UInt64.ofNat u.historyTotals.totalSent
  totalRecv := UInt64.ofNat u.historyTotals.totalRecv
  peaksent := Int32.ofInt u.peaksent
  peakrecv := Int32.ofInt u.peakrecv
  peaktotal := Int32.ofInt u.peaktotal

section Run

variable (qsort : (ℕ→ℕ→Bool)→List ℕ→List ℕ) (ntop : Ntop) (mode : ExportMode) (o : AllOptions)
  (junk : Buffer)

/-- The display part of `tick` in export mode. Without `initscr` the screen has neither columns
nor lines, so that `ui_print` comes to no row and its buffer for a row is a single byte. -/
def display (print : Bool) (tm : Tm) (due : Bool) (s : Exporting) : Except Misuse Exporting :=
  if due then do
    let result ← exportPrint ntop mode tm o s.clocked.toUi s.csvHeaderPrinted
    return {s with csvHeaderPrinted := result.2,out := s.out++result.1}
  else if print then do
    let _ ← (printSizes 0 o (shownCounters s.clocked.toUi) junk).mapError .row
    return s
  else .ok s

/-- What an event does to the history and the screen lines. -/
def eventStep (c : Clocked) (e : ExportEvent) : Clocked := (e.calls o).foldl (clockStep qsort) c

/-- The effect of an event. -/
def exportStep (s : Exporting) (e : ExportEvent) : Except Misuse Exporting :=
  let s' := {s with clocked := eventStep qsort o s.clocked e}
  match e with
  | .tick print tm a => display ntop mode o junk print tm (decide (Repaints a s.clocked)) s'
  | .frame l env link caplen packet =>
    if ∀ i∈offsets (readFrame l (under o env) link caplen) packet,i<caplen then .ok s'
    else .error .uncaptured

/-- A run of the program. -/
def exportRun (start : Timeval) (es : List ExportEvent) : Except Misuse Exporting :=
  es.foldlM (exportStep qsort ntop mode o junk) ⟨initClocked start,false,[]⟩

/-- The state after the events, whatever is printed. -/
def clockedAfter (start : Timeval) (es : List ExportEvent) : Clocked :=
  clockRun qsort start (es.flatMap (ExportEvent.calls o))

/-- What an event exports. -/
def exportedBy (c : Clocked) (e : ExportEvent) : List (Tm×Ui) :=
  match e with
  | .tick _ tm a => if Repaints a c then [(tm,(eventStep qsort o c e).toUi)] else []
  | .frame .. => []

/-- Nothing goes wrong at an event: a call that is due finds address families, a call that is not
does not print, and a frame was captured as far as it is read. -/
def Sound (c : Clocked) (e : ExportEvent) : Prop :=
  match e with
  | .tick print _ a =>
    if Repaints a c then ∀ line∈screenLines (eventStep qsort o c e).toUi,line.ap.addressFamily≠.unspec
    else print=false
  | .frame l env link caplen packet => frameNeeded l (under o env) caplen packet link≤caplen

end Run

section Run

variable {qsort : (ℕ→ℕ→Bool)→List ℕ→List ℕ} {ntop : Ntop} {mode : ExportMode} {o : AllOptions}
  {junk : Buffer} {s s' : Exporting} {e : ExportEvent} {es : List ExportEvent}

/-- The text of a size begins with a blank, whatever its unit. -/
theorem sizeLoop_head (ksize : ℕ) (units : List (List Char)) (bandwidth : ℚ) (k : ℕ) (size : ℚ) :
    ∃ text,sizeLoop ksize units bandwidth k size= ' '::text := by
  induction k generalizing size with
  | zero => exact ⟨_,rfl⟩
  | succ k ih =>
    unfold sizeLoop
    dsimp only
    split
    · exact ⟨_,rfl⟩
    · split
      · exact ⟨_,rfl⟩
      · split
        · exact ⟨_,rfl⟩
        · exact ih _

/-- The first size is written past a buffer of a single byte. -/
theorem printSizes_zero (o : AllOptions) (t : ScreenText.Counters) (line : Buffer) :
    ∃ fault,printSizes 0 o t line=.error fault := by
  cases hp : printSizes 0 o t line with
  | error fault => exact ⟨fault,rfl⟩
  | ok texts =>
    obtain ⟨buf,hb,-⟩ := eq_ok_of_bind hp
    obtain ⟨text,ht⟩ := sizeLoop_head 1024 unitBytes (toFloat t.totalSent.toNat) (unitDivisions-1) 1
    rw [readableSize,snprintf,if_neg (by decide)] at hb
    have hfits := store_fits (i:=0) hb
    simp only [if_true] at hfits
    rw [ht] at hfits
    simp at hfits

/-- All texts of addresses are written exactly if all addresses have a family. -/
theorem sprintAddrs_ok_iff {lines : List HostPairLine} :
    sprintAddrs lines=.ok () ↔ ∀ line∈lines,line.ap.addressFamily≠.unspec := by
  induction lines with
  | nil => exact ⟨fun _ => List.forall_mem_nil _,fun _ => rfl⟩
  | cons line lines ih =>
    have hcons : sprintAddrs (line::lines)=
        (if line.ap.addressFamily=.unspec then Except.error Misuse.unwritten else .ok ()) >>=
          fun _ => sprintAddrs lines := rfl
    rw [List.forall_mem_cons,←ih,hcons]
    by_cases hf : line.ap.addressFamily=.unspec
    · rw [if_pos hf]
      refine ⟨fun h => ?_,fun h => absurd hf h.1⟩
      cases h
    · rw [if_neg hf]
      exact ⟨fun h => ⟨hf,h⟩,fun h => h.2⟩

/-- A test with a result behind it succeeds exactly if the test does. -/
theorem bind_pure_ok_iff {β : Type} {test : Except Misuse Unit} {result : β} :
    (∃ r,(test >>= fun _ => pure result)=Except.ok r) ↔ test=.ok () := by
  cases test with
  | error misuse =>
    refine ⟨?_,fun h => by cases h⟩
    rintro ⟨r,hr⟩
    cases hr
  | ok => exact ⟨fun _ => rfl,fun _ => ⟨result,rfl⟩⟩

/-- An export succeeds exactly if all addresses have a family. -/
theorem exportPrint_ok_iff (hm : mode≠.none) {tm : Tm} {u : Ui} {header : Bool} :
    (∃ result,exportPrint ntop mode tm o u header=.ok result) ↔
      ∀ line∈screenLines u,line.ap.addressFamily≠.unspec := by
  rw [←sprintAddrs_ok_iff]
  cases mode with
  | none => exact absurd rfl hm
  | json => exact bind_pure_ok_iff
  | csv => exact bind_pure_ok_iff

/-- An event succeeds exactly if nothing goes wrong. -/
theorem exportStep_ok_iff (hm : mode≠.none) :
    (∃ s',exportStep qsort ntop mode o junk s e=.ok s') ↔ Sound qsort o s.clocked e := by
  cases e with
  | frame l env link caplen packet =>
    rw [Sound,←extent_readFrame_eq,extent_le_iff,exportStep]
    by_cases hin : ∀ i∈offsets (readFrame l (under o env) link caplen) packet,i<caplen
    · rw [if_pos hin]
      exact ⟨fun _ => hin,fun _ => ⟨_,rfl⟩⟩
    · rw [if_neg hin]
      refine ⟨?_,fun h => absurd h hin⟩
      rintro ⟨s',hs'⟩
      cases hs'
  | tick print tm a =>
    unfold exportStep display Sound
    dsimp only
    by_cases hr : Repaints a s.clocked
    · rw [if_pos hr,decide_eq_true hr,if_pos rfl,←exportPrint_ok_iff hm]
      constructor
      · rintro ⟨s',hs'⟩
        obtain ⟨result,hresult,-⟩ := eq_ok_of_bind hs'
        exact ⟨result,hresult⟩
      · rintro ⟨result,hresult⟩
        refine ⟨{s with
          clocked := eventStep qsort o s.clocked (.tick print tm a)
          csvHeaderPrinted := result.2
          out := s.out++result.1},?_⟩
        rw [hresult]
        rfl
    · rw [if_neg hr,decide_eq_false hr,if_neg Bool.false_ne_true]
      cases print with
      | false => exact ⟨fun _ => rfl,fun _ => ⟨_,rfl⟩⟩
      | true =>
        refine ⟨?_,fun h => by cases h⟩
        rintro ⟨s',hs'⟩
        obtain ⟨fault,hfault⟩ := printSizes_zero o (shownCounters (eventStep qsort o s.clocked
          (.tick true tm a)).toUi) junk
        rw [if_pos rfl,hfault] at hs'
        cases hs'

/-- What an event that succeeds does: the state goes on, and an export is printed. -/
theorem exportStep_spec (h : exportStep qsort ntop mode o junk s e=.ok s') :
    s'.clocked=eventStep qsort o s.clocked e ∧
      ((exportedBy qsort o s.clocked e=[] ∧ s'.out=s.out ∧
          s'.csvHeaderPrinted=s.csvHeaderPrinted) ∨
        ∃ tm u result,exportedBy qsort o s.clocked e=[(tm,u)] ∧
          exportPrint ntop mode tm o u s.csvHeaderPrinted=.ok result ∧
          s'.out=s.out++result.1 ∧ s'.csvHeaderPrinted=result.2) := by
  cases e with
  | frame l env link caplen packet =>
    unfold exportStep at h
    dsimp only at h
    split at h
    · rw [←Except.ok.inj h]
      exact ⟨rfl,.inl ⟨rfl,rfl,rfl⟩⟩
    · cases h
  | tick print tm a =>
    unfold exportStep display at h
    dsimp only at h
    by_cases hr : Repaints a s.clocked
    · rw [decide_eq_true hr,if_pos rfl] at h
      obtain ⟨result,hresult,hs'⟩ := eq_ok_of_bind h
      rw [←Except.ok.inj hs']
      exact ⟨rfl,.inr ⟨tm,_,result,if_pos hr,hresult,rfl,rfl⟩⟩
    · have hnone : exportedBy qsort o s.clocked (.tick print tm a)=[] := if_neg hr
      rw [decide_eq_false hr,if_neg Bool.false_ne_true] at h
      cases print with
      | false =>
        rw [if_neg Bool.false_ne_true] at h
        rw [←Except.ok.inj h]
        exact ⟨rfl,.inl ⟨hnone,rfl,rfl⟩⟩
      | true =>
        rw [if_pos rfl] at h
        obtain ⟨-,-,hs'⟩ := eq_ok_of_bind h
        rw [←Except.ok.inj hs']
        exact ⟨rfl,.inl ⟨hnone,rfl,rfl⟩⟩

/-- A run that succeeds is a step that succeeds and a run of the events behind it. -/
theorem foldlM_cons_ok (h : (e::es).foldlM (exportStep qsort ntop mode o junk) s=.ok s') :
    ∃ s₁,exportStep qsort ntop mode o junk s e=.ok s₁ ∧
      es.foldlM (exportStep qsort ntop mode o junk) s₁=.ok s' := by
  rw [List.foldlM_cons] at h
  exact eq_ok_of_bind h

/-- The state after the first event and others. -/
theorem foldl_calls_cons (c : Clocked) :
    ((e::es).flatMap (ExportEvent.calls o)).foldl (clockStep qsort) c=
      (es.flatMap (ExportEvent.calls o)).foldl (clockStep qsort) (eventStep qsort o c e) := by
  rw [List.flatMap_cons,List.foldl_append,eventStep]

/-- A run succeeds exactly if nothing goes wrong at any of its events. -/
theorem foldlM_ok_iff (hm : mode≠.none) :
    (∃ s',es.foldlM (exportStep qsort ntop mode o junk) s=.ok s') ↔
      ∀ es₁ e es₂,es=es₁++e::es₂→
        Sound qsort o ((es₁.flatMap (ExportEvent.calls o)).foldl (clockStep qsort) s.clocked) e := by
  induction es generalizing s with
  | nil => exact ⟨fun _ es₁ e es₂ h => by simp at h,fun _ => ⟨s,rfl⟩⟩
  | cons e es ih =>
    constructor
    · rintro ⟨s',hs'⟩ es₁ e' es₂ heq
      obtain ⟨s₁,hone,hrest⟩ := foldlM_cons_ok hs'
      cases es₁ with
      | nil =>
        obtain ⟨rfl,-⟩ := List.cons.inj heq
        exact (exportStep_ok_iff hm).mp ⟨s₁,hone⟩
      | cons e₁ es₁ =>
        obtain ⟨rfl,htail⟩ := List.cons.inj heq
        have hall := ih.mp ⟨s',hrest⟩ es₁ e' es₂ htail
        rw [(exportStep_spec hone).1] at hall
        rw [foldl_calls_cons]
        exact hall
    · intro hall
      obtain ⟨s₁,hone⟩ := (exportStep_ok_iff hm).mpr (hall [] e es rfl)
      have hrest : ∃ s',es.foldlM (exportStep qsort ntop mode o junk) s₁=.ok s' := by
        refine ih.mpr fun es₁ e' es₂ heq => ?_
        rw [(exportStep_spec hone).1,←foldl_calls_cons]
        exact hall (e::es₁) e' es₂ (by rw [heq]; rfl)
      obtain ⟨s',hs'⟩ := hrest
      refine ⟨s',?_⟩
      rw [List.foldlM_cons,hone]
      exact hs'

end Run

/-- No rate is negative. -/
def Nonnegative (line : HostPairLine) : Prop := ∀ j,0≤line.recv j ∧ 0≤line.sent j

variable {ntop : Ntop} {o : AllOptions} {line : HostPairLine} {u : Ui}

/-- A screen that shows the packets of a log: exactly the pairs of hosts that are active, each with
its bytes over the time that the division covers. -/
structure ShowsLog (o : OptionsT) (log : SlotLog) (u : Ui) : Prop where
  /-- All lines are listed. -/
  listed : u.screenList.Perm (lineRecords u)
  /-- There is a line for every active pair. -/
  active : ∀ k,k∈keys (lines u) ↔ Active o log k
  /-- The rates of the lines. -/
  rates : Rates o log (historyLengthOf u) u

section Screens

variable {qsort : (ℕ→ℕ→Bool)→List ℕ→List ℕ} {log : SlotLog} {c : Clocked}

/-- A tick that repaints shows the packets. -/
theorem tick_showsLog (hq : ∀ compare items,(qsort compare items).Perm items)
    (h : Logged log c) (a : TickArgs) (hr : Repaints a c) (hp : a.env.options.paused=false)
    (hf : a.env.options.freezeorder=false) :
    ShowsLog a.env.options (log.step (.tick a)) (tick qsort a c).toUi ∧
      (∀ line∈screenLines (tick qsort a c).toUi,Nonnegative line) ∧
      Nonnegative (tick qsort a c).toUi.totals := by
  obtain ⟨env,ho,-,hu⟩ := tick_eq qsort a c
  have hb := h.beforeDisplay a
  have hlength : historyLengthOf (tick qsort a c).toUi=
      historyLengthOf (beforeDisplay a.now c).toUi :=
    funext fun j => historyLengthOf_tick qsort a c j
  rw [if_pos hr] at hu
  rw [← ho] at hp hf ⊢
  generalize beforeDisplay a.now c=d at hb hu hlength
  generalize log.step (.tick a)=log' at hb ⊢
  have hpos := historyLengthOf_pos hb.wf
  have hrates := fun j => analyseData_rates qsort a.hostName hb hp j
  have hlisted := analyseData_unfrozen qsort env a.hostName hq hb.wf hp hf
  have hkeys := fun k => (analyseData_keys qsort env a.hostName hb.wf hp hf k).trans
    (flows_active_iff hb.follows env.options k)
  rw [hu] at hlength ⊢
  have hnonneg (n : ℕ) (j : Division) : 0≤(n : ℚ)/historyLengthOf d.toUi j :=
    div_nonneg (Nat.cast_nonneg n) (hpos j).le
  refine ⟨⟨hlisted,hkeys,?_⟩,?_,?_⟩
  · rw [hlength]
    exact fun e he j => (hrates j).2 e he
  · intro line hline
    obtain ⟨p,hm,rfl⟩ := List.mem_map.mp hline
    obtain ⟨e,he,heq⟩ := exists_line (hlisted.subset hm)
    rw [← heq]
    intro j
    obtain ⟨hrecv,hsent⟩ := (hrates j).2 e he
    rw [hrecv,hsent]
    exact ⟨hnonneg _ j,hnonneg _ j⟩
  · intro j
    obtain ⟨hrecv,hsent⟩ := (hrates j).1
    rw [hrecv,hsent]
    exact ⟨hnonneg _ j,hnonneg _ j⟩

/-- Packets of a log come from the calls. -/
theorem slotLog_packets {start : Timeval} {es : List ClockEvent} {p : Accounted→Prop}
    (h : ∀ env iptr hwDir,.packet env iptr hwDir∈es→∀ a,account env iptr hwDir=some a→ p a) :
    ∀ i,∀ a∈(slotLog start es).packetsAt i,p a := by
  induction es using List.reverseRecOn with
  | nil =>
    intro i a ha
    cases i <;> exact absurd ha List.not_mem_nil
  | append_singleton es e ih =>
    have hprev := ih fun env iptr hwDir hm => h env iptr hwDir (List.mem_append_left _ hm)
    intro i a ha
    rw [slotLog,List.foldl_append,List.foldl_cons,List.foldl_nil,←slotLog] at ha
    cases e with
    | packet env iptr hwDir =>
      rw [packetsAt_packet,slotStep] at ha
      cases hacc : account env iptr hwDir with
      | none =>
        simp only [Event.accounted,hacc] at ha
        exact hprev i a ha
      | some b =>
        simp only [Event.accounted,hacc] at ha
        rcases mem_addPacket.mp ha with hm|⟨-,rfl⟩
        · exact hprev i a hm
        · exact h env iptr hwDir (List.mem_append_right _ List.mem_cons_self) a hacc
    | tick b =>
      unfold SlotLog.step at ha
      dsimp only at ha
      split at ha
      · cases i with
        | zero => exact absurd ha List.not_mem_nil
        | succ i => exact hprev i a ha
      · exact hprev i a ha

/-- Merging pairs of hosts keeps their address family. -/
theorem aggregate_addressFamily (o : OptionsT) (k : AddrPair) :
    (aggregate o k).addressFamily=k.addressFamily := by
  unfold aggregate
  dsimp only
  split_ifs <;> rfl

/-- If the packets have address families, so have the pairs that are active. -/
theorem active_family {o : OptionsT} {start : Timeval} {es : List ClockEvent}
    (h : ∀ env iptr hwDir,.packet env iptr hwDir∈es→∀ a,account env iptr hwDir=some a→
      a.key.addressFamily≠.unspec) {k : AddrPair} (hk : Active o (slotLog start es) k) :
    k.addressFamily≠.unspec := by
  obtain ⟨i,-,a,ha,rfl⟩ := hk
  rw [aggregate_addressFamily]
  exact slotLog_packets h i a ha

/-- The lines have address families exactly if the active pairs do. -/
theorem ShowsLog.families_iff {o : OptionsT} {u : Ui} (h : ShowsLog o log u) (hl : Labelled u) :
    (∀ line∈screenLines u,line.ap.addressFamily≠.unspec) ↔
      ∀ k,Active o log k→k.addressFamily≠.unspec := by
  constructor
  · intro hlines k hk
    obtain ⟨e,he,rfl⟩ := List.mem_map.mp ((h.active k).mpr hk)
    have hmem : e.2∈(lines u).map Prod.snd := List.mem_map_of_mem he
    rw [lines_records] at hmem
    obtain ⟨a,ha,hline⟩ := List.mem_map.mp hmem
    have hshown := hlines _ (List.mem_map_of_mem (h.listed.symm.subset ha))
    rwa [hline,hl e he] at hshown
  · intro hkeys line hline
    obtain ⟨place,hm,rfl⟩ := List.mem_map.mp hline
    obtain ⟨e,he,heq⟩ := exists_line (h.listed.subset hm)
    rw [←heq,hl e he]
    exact hkeys e.1 ((h.active e.1).mp (List.mem_map_of_mem he))

/-- A tick that repaints sets the time of the last repaint. -/
theorem tick_lastDisplay (a : TickArgs) (hr : Repaints a c) :
    (tick qsort a c).lastDisplay=a.now := by
  have hd : (beforeDisplay a.now c).lastDisplay=c.lastDisplay := by
    unfold beforeDisplay tickElapsed tickRotate
    split <;> rfl
  rw [Repaints,← hd] at hr
  by_cases hrefresh : refreshes a (beforeDisplay a.now c)
  · simp only [tick,if_pos hrefresh,decide_eq_true_eq,if_pos hr]
  · simp only [tick,if_neg hrefresh,decide_eq_true_eq,if_pos hr]

/-- Calls that are far enough apart are all due. -/
theorem repaints_of_spaced {o : AllOptions} {es₁ es₂ : List ExportEvent} {print : Bool} {tm : Tm}
    {a : TickArgs}
    (h : (c.lastDisplay::tickTimes ((es₁++.tick print tm a::es₂).flatMap
        (ExportEvent.calls o))).IsChain fun t t' => displayResolution≤timevalDiff t' t) :
    Repaints a ((es₁.flatMap (ExportEvent.calls o)).foldl (clockStep qsort) c) := by
  induction es₁ generalizing c with
  | nil => exact .inr (List.isChain_cons_cons.mp h).1
  | cons e₁ es₁ ih =>
    rw [foldl_calls_cons]
    cases e₁ with
    | frame l env link caplen packet =>
      have hcalls : tickTimes (ExportEvent.calls o (.frame l env link caplen packet))=[] := by
        unfold ExportEvent.calls
        dsimp only
        split <;> rfl
      have hlast : (eventStep qsort o c (.frame l env link caplen packet)).lastDisplay=
          c.lastDisplay := by
        unfold eventStep ExportEvent.calls
        dsimp only
        split <;> rfl
      refine ih ?_
      rw [hlast]
      rw [List.cons_append,List.flatMap_cons,tickTimes,List.filterMap_append,←tickTimes,hcalls,
        List.nil_append] at h
      exact h
    | tick print₁ tm₁ a₁ =>
      obtain ⟨hdue,hrest⟩ := List.isChain_cons_cons.mp h
      have hlast : (eventStep qsort o c (.tick print₁ tm₁ a₁)).lastDisplay=a₁.now :=
        tick_lastDisplay (TickArgs.under o a₁) (.inr hdue)
      refine ih ?_
      rw [hlast]
      exact hrest

end Screens

section Results

variable {qsort : (ℕ→ℕ→Bool)→List ℕ→List ℕ} {start : Timeval} {es : List ExportEvent}
  {s : Exporting}

/-- A call that is due shows the log up to it. -/
theorem tick_shows (hq : ∀ compare items,(qsort compare items).Perm items) (hp : o.paused=false)
    (hf : o.freezeorder=false) (print : Bool) (tm : Tm) {a : TickArgs}
    (hr : Repaints a (clockedAfter qsort o start es)) :
    let u := (eventStep qsort o (clockedAfter qsort o start es) (.tick print tm a)).toUi
    ShowsLog o.toOptionsT
        (slotLog start ((es++[ExportEvent.tick print tm a]).flatMap (ExportEvent.calls o))) u ∧
      Labelled u ∧ (∀ line∈screenLines u,Nonnegative line) ∧ Nonnegative u.totals := by
  have hcalls : (es++[ExportEvent.tick print tm a]).flatMap (ExportEvent.calls o)=
      es.flatMap (ExportEvent.calls o)++[.tick (TickArgs.under o a)] := List.flatMap_append
  obtain ⟨hlog,hrun⟩ := run_tick qsort start (es.flatMap (ExportEvent.calls o))
    (TickArgs.under o a)
  have hlogged := logged_run qsort start (es.flatMap (ExportEvent.calls o))
  have hlab := labelled_run qsort start
    (es.flatMap (ExportEvent.calls o)++[.tick (TickArgs.under o a)])
  obtain ⟨hshows,hlines,htotals⟩ := tick_showsLog hq hlogged (TickArgs.under o a) hr hp hf
  rw [hrun] at hlab
  rw [hcalls,hlog]
  exact ⟨hshows,hlab,hlines,htotals⟩

/-- Nothing goes wrong at a call exactly if it finds address families for all pairs of hosts that
are active, when it is due, and otherwise does not print. -/
theorem sound_tick_iff (hq : ∀ compare items,(qsort compare items).Perm items) (hp : o.paused=false)
    (hf : o.freezeorder=false) {print : Bool} {tm : Tm} {a : TickArgs} :
    Sound qsort o (clockedAfter qsort o start es) (.tick print tm a) ↔
      if Repaints a (clockedAfter qsort o start es) then
        ∀ k,Active o.toOptionsT
          (slotLog start ((es++[ExportEvent.tick print tm a]).flatMap (ExportEvent.calls o))) k→
            k.addressFamily≠.unspec
      else print=false := by
  unfold Sound
  dsimp only
  by_cases hr : Repaints a (clockedAfter qsort o start es)
  · obtain ⟨hshows,hlab,-⟩ := tick_shows hq hp hf print tm hr
    rw [if_pos hr,if_pos hr]
    exact hshows.families_iff hlab
  · rw [if_neg hr,if_neg hr]

/-- A run succeeds exactly if nothing goes wrong at any of its events. -/
theorem run_ok_iff {ntop : Ntop} {mode : ExportMode} {junk : Buffer} (hm : mode≠.none) :
    (∃ s,exportRun qsort ntop mode o junk start es=.ok s) ↔
      ∀ es₁ e es₂,es=es₁++e::es₂→Sound qsort o (clockedAfter qsort o start es₁) e :=
  foldlM_ok_iff hm

/-- A run in export mode reads captured bytes only, prints written texts only and stays inside its
row buffer if and only if all frames were captured as far as their handlers read, every call that is
due finds address families for all pairs of hosts that are active, and every call of `export_loop`
is due. The last is so if all calls of both threads are as far apart as `DISPLAY_RESOLUTION`. -/
theorem export_run_iff (hq : ∀ compare items,(qsort compare items).Perm items) (ntop : Ntop)
    {mode : ExportMode} (hm : mode≠.none) (hp : o.paused=false) (hf : o.freezeorder=false)
    (junk : Buffer) (start : Timeval) (es : List ExportEvent) :
    ((∃ s,exportRun qsort ntop mode o junk start es=.ok s) ↔
      (∀ l env link caplen packet,.frame l env link caplen packet∈es→
        frameNeeded l (under o env) caplen packet link≤caplen) ∧
      ∀ es₁ print tm a es₂,es=es₁++.tick print tm a::es₂→
        if Repaints a (clockedAfter qsort o start es₁) then
          ∀ k,Active o.toOptionsT
            (slotLog start ((es₁++[ExportEvent.tick print tm a]).flatMap (ExportEvent.calls o))) k→
              k.addressFamily≠.unspec
        else print=false) ∧
    ((start::tickTimes (es.flatMap (ExportEvent.calls o))).IsChain (fun t t' =>
        displayResolution≤timevalDiff t' t)→
      ∀ es₁ print tm a es₂,es=es₁++.tick print tm a::es₂→
        Repaints a (clockedAfter qsort o start es₁)) := by
  constructor
  · refine (run_ok_iff hm).trans ⟨fun h => ⟨?_,?_⟩,fun h es₁ e es₂ heq => ?_⟩
    · intro l env link caplen packet hmem
      obtain ⟨es₁,es₂,heq⟩ := List.append_of_mem hmem
      exact h es₁ _ es₂ heq
    · intro es₁ print tm a es₂ heq
      exact (sound_tick_iff hq hp hf).mp (h es₁ _ es₂ heq)
    · cases e with
      | frame l env link caplen packet =>
        refine h.1 l env link caplen packet ?_
        rw [heq]
        exact List.mem_append_right _ List.mem_cons_self
      | tick print tm a => exact (sound_tick_iff hq hp hf).mpr (h.2 es₁ print tm a es₂ heq)
  · intro hspaced es₁ print tm a es₂ heq
    rw [heq] at hspaced
    exact repaints_of_spaced hspaced

end Results

/-- A tick at a number of microseconds. -/
def tickAt (usec : ℤ) : TickArgs := bareTick 0 usec

/-- Midnight. -/
def midnight : Tm := ⟨126,0,1,0,0,0⟩

/-- A raw packet of which a number of bytes was captured. -/
def rawFrame (caplen : ℕ) (packet : ℕ→UInt8) : ExportEvent :=
  .frame ⟨false,fun _ => 0⟩ bareEnv .raw caplen packet

/-- A datagram without data. -/
def datagram : ℕ→UInt8 := ip4Packet ipprotoUdp ![10,0,0,1] ![10,0,0,9]

/-- An IPv6 packet between two hosts. -/
def strayPacket : ℕ→UInt8 :=
  ip6Packet ipprotoUdp (fun j => if j.val=0 then 0x20 else 1) fun j => if j.val=0 then 0x20 else 2

/-- A packet and two calls that are due. -/
def twoDue : List ExportEvent :=
  [rawFrame 24 datagram,.tick false midnight (tickAt 35000),.tick true midnight (tickAt 70000)]

/-- The ticks of `twoDue` are far enough apart. -/
theorem twoDue_spaced : ((⟨0,0⟩ : Timeval)::tickTimes
    (twoDue.flatMap (ExportEvent.calls bareOptions))).IsChain fun t t' =>
      displayResolution≤timevalDiff t' t := by
  have htimes : tickTimes (twoDue.flatMap (ExportEvent.calls bareOptions))=
      [⟨0,35000⟩,⟨0,70000⟩] := rfl
  rw [htimes]
  norm_num [displayResolution,timevalDiff]

/-- Every packet of `twoDue` that is counted has an address family. -/
theorem twoDue_family (env : Env) (iptr : Packet) (hwDir : ℤ)
    (hm : ClockEvent.packet env iptr hwDir∈twoDue.flatMap (ExportEvent.calls bareOptions))
    (a : Accounted) (ha : account env iptr hwDir=some a) : a.key.addressFamily≠.unspec := by
  have hinet : (account (under bareOptions bareEnv) datagram (-1)).all
      (fun a => decide (a.key.addressFamily≠.unspec))=true := by decide
  have hcalls : twoDue.flatMap (ExportEvent.calls bareOptions)=
      [.packet (under bareOptions bareEnv) (fun j => datagram (0+j)) (-1),
        .tick (TickArgs.under bareOptions (tickAt 35000)),
        .tick (TickArgs.under bareOptions (tickAt 70000))] := rfl
  have hshift : (fun j => datagram (0+j))=datagram := funext fun j => by rw [Nat.zero_add]
  rw [hcalls,hshift,List.mem_cons] at hm
  rcases hm with hpacket|htick
  · obtain ⟨rfl,rfl,rfl⟩ := ClockEvent.packet.inj hpacket
    rw [ha] at hinet
    exact of_decide_eq_true hinet
  · simp at htick

/-- Sorting that keeps the order as it is. -/
theorem keepsOrder (compare : ℕ→ℕ→Bool) (items : List ℕ) :
    ((fun _ => id : (ℕ→ℕ→Bool)→List ℕ→List ℕ) compare items).Perm items := .refl items

/-- The run of `twoDue` stays in its memory. -/
theorem twoDue_ok (mode : ExportMode) (hm : mode≠.none) :
    ∃ s,exportRun (fun _ => id) plainNtop mode bareOptions (fun _ => nul) ⟨0,0⟩ twoDue=.ok s := by
  refine (run_ok_iff hm).mpr fun es₁ e es₂ heq => ?_
  have he : e∈twoDue := by
    rw [heq]
    exact List.mem_append_right _ List.mem_cons_self
  cases e with
  | frame l env link caplen packet =>
    have hframe : ExportEvent.frame l env link caplen packet=rawFrame 24 datagram := by
      simpa [twoDue] using he
    obtain ⟨rfl,rfl,rfl,rfl,rfl⟩ := ExportEvent.frame.inj hframe
    show frameNeeded _ _ 24 datagram .raw≤24
    decide
  | tick print tm a =>
    have hspaced := twoDue_spaced
    rw [heq] at hspaced
    have hr : Repaints a (clockedAfter (fun _ => id) bareOptions ⟨0,0⟩ es₁) :=
      repaints_of_spaced hspaced
    refine (sound_tick_iff keepsOrder rfl rfl).mpr ?_
    rw [if_pos hr]
    intro k hk
    refine active_family (fun env iptr hwDir hpacket => twoDue_family env iptr hwDir ?_) hk
    rw [heq,List.append_cons,List.flatMap_append]
    exact List.mem_append_left _ hpacket

/-- The IPv6 packet counts for the key without an address family. -/
theorem strayPacket_family : ∃ a,account (under bareOptions bareEnv) strayPacket (-1)=some a ∧
    a.key.addressFamily=.unspec := by
  have hany : (account (under bareOptions bareEnv) strayPacket (-1)).any
      (fun a => decide (a.key.addressFamily=.unspec))=true := by decide
  obtain ⟨a,ha,hunspec⟩ := (Option.any_eq_true _ _).mp hany
  exact ⟨a,ha,of_decide_eq_true hunspec⟩

/-- A call after 35 milliseconds is due. -/
theorem firstDue {c : Clocked} (hc : c.lastDisplay=⟨0,0⟩) : Repaints (tickAt 35000) c := by
  refine .inr ?_
  rw [hc]
  norm_num [tickAt,bareTick,displayResolution,timevalDiff]

/-- Another one 5 milliseconds later is not. -/
theorem secondNotDue : ¬Repaints (tickAt 40000) (clockedAfter (fun _ => id) bareOptions ⟨0,0⟩
    [.tick false midnight (tickAt 35000)]) := by
  have hlast : (clockedAfter (fun _ => id) bareOptions ⟨0,0⟩
      [.tick false midnight (tickAt 35000)]).lastDisplay=⟨0,35000⟩ :=
    tick_lastDisplay (TickArgs.under bareOptions (tickAt 35000)) (firstDue rfl)
  obtain ⟨-,-,hstamp,-⟩ := tick_eq (fun _ => id) (TickArgs.under bareOptions (tickAt 35000))
    (initClocked ⟨0,0⟩)
  have hopen : (beforeDisplay (TickArgs.under bareOptions (tickAt 35000)).now
      (initClocked ⟨0,0⟩)).lastTimestamp=⟨0,0⟩ := by
    norm_num [beforeDisplay,tickElapsed,tickRotate,rotates,TickArgs.under,tickAt,bareTick,
      initClocked,resolution,timevalDiff]
  have hopened : (clockedAfter (fun _ => id) bareOptions ⟨0,0⟩
      [.tick false midnight (tickAt 35000)]).lastTimestamp=⟨0,0⟩ := hstamp.trans hopen
  rintro (hrot|hdue)
  · rw [rotates,hopened] at hrot
    norm_num [tickAt,bareTick,resolution,timevalDiff] at hrot
  · rw [hlast] at hdue
    norm_num [tickAt,bareTick,displayResolution,timevalDiff] at hdue

/-- Calls after 35 and 70 milliseconds are due. A call of `export_loop` 5 milliseconds after one for
a frame is not. A datagram captured without its ports is read too far, and a packet without an
address family has no text. -/
theorem export_run_frame :
    let Ends := fun es => ∃ s,exportRun (fun _ => id) plainNtop .json bareOptions (fun _ => nul)
      ⟨0,0⟩ es=.ok s
    Ends twoDue ∧
    ¬Ends [.tick false midnight (tickAt 35000),.tick true midnight (tickAt 40000)] ∧
    ¬Ends [rawFrame 20 datagram] ∧
    ¬Ends [rawFrame 48 strayPacket,.tick false midnight (tickAt 35000)] := by
  intro Ends
  have hjson : ExportMode.json≠.none := ExportMode.noConfusion
  have hiff (es : List ExportEvent) :=
    (@export_run_iff bareOptions _ keepsOrder plainNtop _ hjson rfl rfl (fun _ => nul) ⟨0,0⟩ es).1
  refine ⟨twoDue_ok .json hjson,fun h => ?_,fun h => ?_,fun h => ?_⟩
  · have hprint := ((hiff _).mp h).2 [.tick false midnight (tickAt 35000)] _ _ _ _ rfl
    rw [if_neg secondNotDue] at hprint
    cases hprint
  · have hneeded := ((hiff _).mp h).1 _ _ _ _ _ List.mem_cons_self
    exact absurd hneeded (by decide)
  · have hfamily := ((hiff _).mp h).2 [rawFrame 48 strayPacket] _ _ _ _ rfl
    rw [if_pos (firstDue rfl)] at hfamily
    obtain ⟨a,ha,hunspec⟩ := strayPacket_family
    have hlog : slotLog ⟨0,0⟩ (([rawFrame 48 strayPacket]++
        [ExportEvent.tick false midnight (tickAt 35000)]).flatMap
          (ExportEvent.calls bareOptions))=⟨⟨⟨0,0⟩,[a]⟩,[]⟩ := by
      have hshift : (fun j => strayPacket (0+j))=strayPacket :=
        funext fun j => by rw [Nat.zero_add]
      have hearly : ¬timevalDiff (tickAt 35000).now ⟨0,0⟩≥resolution := by
        norm_num [tickAt,bareTick,resolution,timevalDiff]
      show SlotLog.step (SlotLog.step ⟨⟨⟨0,0⟩,[]⟩,[]⟩ (.packet (under bareOptions bareEnv)
        (fun j => strayPacket (0+j)) (-1))) (.tick (TickArgs.under bareOptions (tickAt 35000)))=_
      rw [hshift,SlotLog.step.eq_2,ha]
      exact if_neg hearly
    rw [hlog] at hfamily
    refine hfamily _ ⟨0,by decide,a,List.mem_singleton_self a,rfl⟩ ?_
    rw [aggregate_addressFamily]
    exact hunspec

section Results

variable {qsort : (ℕ→ℕ→Bool)→List ℕ→List ℕ} {start : Timeval} {es : List ExportEvent}
  {s : Exporting}

/-- An event that reads names of processes of a kind. -/
def ExportEvent.Names (p : Char→Prop) : ExportEvent→Prop
  | .tick _ _ a => EventSpelled p (.tick a)
  | .frame _ env _ _ _ => TableSpelled p env.liveTable

end Results

end IftopColor.ExportRun
