import IftopColor.TickClock

/-!
# Slots of the history against the clock

Rates are bytes of a window of slots over the length of that window.
`history_length` takes every closed slot to be `RESOLUTION` long. A tick closes
at most one slot, however late it comes, and the next slot begins at that tick;
so the lengths are exact as long as every closed slot of the window was closed
in time.
-/

namespace IftopColor.SlotTimes

open RecordStore AddrHash ProcInfo Options PacketDirection History FlowAccounting ByteConservation
open Screen ScreenTotals TickClock

/-- Times that are at least `r` apart span at least `r` for every gap. -/
theorem span_ge {r : ℚ} (t : ℚ) (ts : List ℚ) (h : (t::ts).IsChain fun a b => r≤a-b) :
    ts.length*r≤t-(t::ts).getLast (List.cons_ne_nil t ts) := by
  induction ts generalizing t with
  | nil => simp
  | cons u us ih =>
    obtain ⟨hu,hus⟩ := List.isChain_cons_cons.mp h
    have hi := ih u hus
    rw [List.getLast_cons (List.cons_ne_nil u us),List.length_cons]
    push_cast
    linarith

/-- Times that are at least `r` apart span just that much for each gap if every gap is `r`. -/
theorem span_eq_iff {r : ℚ} (t : ℚ) (ts : List ℚ) (h : (t::ts).IsChain fun a b => r≤a-b) :
    t-(t::ts).getLast (List.cons_ne_nil t ts)=ts.length*r ↔
      (t::ts).IsChain fun a b => a-b=r := by
  induction ts generalizing t with
  | nil => simp
  | cons u us ih =>
    obtain ⟨hu,hus⟩ := List.isChain_cons_cons.mp h
    have hge := span_ge u us hus
    rw [List.isChain_cons_cons,←ih u hus,List.getLast_cons (List.cons_ne_nil u us),
      List.length_cons]
    push_cast
    constructor
    · intro he
      constructor <;> linarith
    · rintro ⟨h1,h2⟩
      linarith

/-- A time in seconds. -/
def seconds (t : Timeval) : ℚ := t.tvSec+(t.tvUsec : ℚ)/1000000

/-- Differences of times are differences of seconds. -/
theorem timevalDiff_eq (a b : Timeval) : timevalDiff a b=seconds a-seconds b := by
  unfold timevalDiff seconds
  push_cast
  ring

/-- A slot of the history as it came about. -/
structure LoggedSlot where
  /-- The rotation that opened the slot, or the start. -/
  opened : Timeval
  /-- Packets accounted while it was the current slot. -/
  packets : List Accounted

/-- All slots since the start. -/
structure SlotLog where
  /-- The current slot. -/
  current : LoggedSlot
  /-- Closed slots from the newest to the oldest. -/
  closed : List LoggedSlot

/-- All slots, newest first. -/
def SlotLog.slots (log : SlotLog) : List LoggedSlot := log.current::log.closed

/-- A packet goes to the current slot. A tick at least `RESOLUTION` after the
opening of the current slot closes it. -/
def SlotLog.step (log : SlotLog) : ClockEvent→SlotLog
  | .tick a =>
    if timevalDiff a.now log.current.opened≥resolution then ⟨⟨a.now,[]⟩,log.slots⟩ else log
  | .packet env iptr hwDir =>
    match account env iptr hwDir with
    | none => log
    | some a => ⟨⟨log.current.opened,log.current.packets++[a]⟩,log.closed⟩

/-- The slots after some calls. -/
def slotLog (start : Timeval) (es : List ClockEvent) : SlotLog :=
  es.foldl SlotLog.step ⟨⟨start,[]⟩,[]⟩

/-- The slots that `analyse_data` adds into a division. -/
def SlotLog.window (log : SlotLog) (j : Division) : List LoggedSlot :=
  log.current::log.closed.take (historyDivs j-1)

/-- The oldest slot of the window. -/
def SlotLog.oldest (log : SlotLog) (j : Division) : LoggedSlot :=
  (log.window j).getLast (List.cons_ne_nil _ _)

/-- The time from the opening of the oldest slot of the window to a tick. -/
def SlotLog.covered (log : SlotLog) (now : Timeval) (j : Division) : ℚ :=
  timevalDiff now (log.oldest j).opened

/-- Bytes of the packets in the window that satisfy a condition. -/
def SlotLog.bytes (log : SlotLog) (w : Accounted→ℕ) (p : Accounted→Bool) (j : Division) : ℕ :=
  ((((log.window j).flatMap LoggedSlot.packets).filter p).map w).sum

/-- Every closed slot of the window was closed exactly `RESOLUTION` after its
opening. In the first slot, which has no closed slot, time has passed. -/
def SlotLog.OnTime (log : SlotLog) (now : Timeval) (j : Division) : Prop :=
  ((log.window j).IsChain fun newer older => timevalDiff newer.opened older.opened=resolution) ∧
    (log.closed=[]→0<timevalDiff now log.current.opened)

/-- Packets by age of their slot. -/
def SlotLog.packetsAt (log : SlotLog) (i : ℕ) : List Accounted :=
  (log.slots[i]?.map LoggedSlot.packets).getD []

/-- The state agrees with the slots as they came about. -/
structure Logged (log : SlotLog) (s : Clocked) : Prop where
  /-- The current slot was opened at the last rotation. -/
  opened : log.current.opened=s.lastTimestamp
  /-- Slots in use. -/
  len : s.historyLen=min historyLength (1+log.closed.length)
  /-- The screen fits together. -/
  wf : UiWf s.toUi
  /-- Counters hold the bytes of their slots. -/
  follows : Follows s.toCapture log.packetsAt
  /-- No slot was closed too early. -/
  spaced : log.slots.IsChain fun newer older => resolution≤timevalDiff newer.opened older.opened

variable (qsort : (ℕ→ℕ→Bool)→List ℕ→List ℕ) {log : SlotLog} {s : Clocked}

/-- At the start the log has one open slot without packets. -/
theorem logged_init (start : Timeval) : Logged ⟨⟨start,[]⟩,[]⟩ (initClocked start) := by
  have hp : SlotLog.packetsAt ⟨⟨start,[]⟩,[]⟩=fun _ => [] := by
    funext i
    cases i <;> rfl
  refine ⟨rfl,rfl,uiInit_follows.1,?_,List.isChain_singleton _⟩
  rw [hp]
  exact uiInit_follows.2

/-- A packet lands in the current slot of the log. -/
theorem packetsAt_packet (log : SlotLog) (env : Env) (iptr : Packet) (hwDir : ℤ) :
    (log.step (.packet env iptr hwDir)).packetsAt=
      slotStep log.packetsAt (.packet env iptr hwDir) := by
  unfold SlotLog.step
  cases ha : account env iptr hwDir with
  | none => simp only [slotStep,Event.accounted,ha]
  | some a =>
    funext i
    cases i <;> simp [slotStep,Event.accounted,ha,SlotLog.packetsAt,SlotLog.slots]

/-- A packet opens and closes no slot. -/
theorem step_packet (log : SlotLog) (env : Env) (iptr : Packet) (hwDir : ℤ) :
    (log.step (.packet env iptr hwDir)).current.opened=log.current.opened ∧
      (log.step (.packet env iptr hwDir)).closed=log.closed := by
  cases ha : account env iptr hwDir with
  | none => simp only [SlotLog.step,ha,and_self]
  | some a => simp only [SlotLog.step,ha,and_self]

/-- Chains of slots are about the times of their openings. -/
theorem isChain_opened {r : ℚ→Prop} {slots : List LoggedSlot} :
    (slots.IsChain fun newer older => r (timevalDiff newer.opened older.opened)) ↔
      (slots.map fun slot => seconds slot.opened).IsChain fun a b => r (a-b) := by
  simp only [List.isChain_map,timevalDiff_eq]

/-- A packet is logged in the slot in which the program counts it. -/
theorem Logged.packet (h : Logged log s) (env : Env) (iptr : Packet) (hwDir : ℤ) :
    Logged (log.step (.packet env iptr hwDir)) (clockStep qsort s (.packet env iptr hwDir)) := by
  obtain ⟨ho,hc⟩ := step_packet log env iptr hwDir
  obtain ⟨hw,hf⟩ := uiStep_follows qsort h.wf h.follows (.capture (.packet env iptr hwDir))
  obtain ⟨-,hl⟩ := handleIpPacket_ring env iptr hwDir s.toCapture
  refine ⟨ho.trans h.opened,?_,hw,?_,?_⟩
  · rw [hc]
    exact hl.trans h.len
  · rw [packetsAt_packet]
    exact hf
  · have hs := h.spaced
    rw [isChain_opened] at hs ⊢
    simpa only [SlotLog.slots,List.map_cons,ho,hc] using hs

/-- The tick repaints. -/
def Repaints (a : TickArgs) (s : Clocked) : Prop :=
  rotates a.now s ∨ timevalDiff a.now s.lastDisplay≥displayResolution

instance (a : TickArgs) (s : Clocked) : Decidable (Repaints a s) :=
  inferInstanceAs (Decidable (_ ∨ _))

/-- A tick is a rotation when it is time, the elapsed part of the slot, and an
analysis when it repaints. -/
theorem tick_eq (a : TickArgs) (s : Clocked) : ∃ env : Env,env.options=a.env.options ∧
    (tick qsort a s).lastTimestamp=(beforeDisplay a.now s).lastTimestamp ∧
    (tick qsort a s).toUi=
      if Repaints a s then analyseData qsort env a.hostName (beforeDisplay a.now s).toUi
      else (beforeDisplay a.now s).toUi := by
  have hd : (beforeDisplay a.now s).lastDisplay=s.lastDisplay := by
    unfold beforeDisplay tickElapsed tickRotate
    split <;> rfl
  by_cases hr : refreshes a (beforeDisplay a.now s)
  · refine ⟨{a.env with liveTable := a.refreshed},rfl,?_⟩
    by_cases hp : Repaints a s
    · have hp' := hp
      rw [Repaints,←hd] at hp'
      simp only [tick,if_pos hr,decide_eq_true_eq,if_pos hp',if_pos hp,and_self]
    · have hp' := hp
      rw [Repaints,←hd] at hp'
      simp only [tick,if_pos hr,decide_eq_true_eq,if_neg hp',if_neg hp,and_self]
  · refine ⟨a.env,rfl,?_⟩
    by_cases hp : Repaints a s
    · have hp' := hp
      rw [Repaints,←hd] at hp'
      simp only [tick,if_neg hr,decide_eq_true_eq,if_pos hp',if_pos hp,and_self]
    · have hp' := hp
      rw [Repaints,←hd] at hp'
      simp only [tick,if_neg hr,decide_eq_true_eq,if_neg hp',if_neg hp,and_self]

/-- The display part of a tick finds its rotation in the log. -/
theorem Logged.beforeDisplay (h : Logged log s) (a : TickArgs) :
    Logged (log.step (.tick a)) (beforeDisplay a.now s) := by
  have hrot : rotates a.now s ↔ timevalDiff a.now log.current.opened≥resolution := by
    rw [rotates,h.opened]
  unfold TickClock.beforeDisplay tickElapsed tickRotate SlotLog.step
  dsimp only
  by_cases hr : rotates a.now s
  · obtain ⟨hw,hf⟩ := uiStep_follows (fun _ => id) h.wf h.follows (.capture .rotate)
    obtain ⟨hw',hf'⟩ := uiStep_follows (fun _ => id) hw hf (.elapsed (timevalDiff a.now a.now))
    have hshift : SlotLog.packetsAt ⟨⟨a.now,[]⟩,log.slots⟩=
        uiSlotStep log.packetsAt (.capture .rotate) := by
      funext i
      cases i <;> rfl
    rw [if_pos hr,if_pos (hrot.mp hr)]
    refine ⟨rfl,?_,hw',?_,?_⟩
    · have hl := (historyRotate_ring s.toCapture).2
      have hlen := h.len
      simp only [historyLength] at hl hlen ⊢
      simp only [setSlotElapsed,hl,hlen,SlotLog.slots,List.length_cons]
      split <;> omega
    · rw [hshift]
      exact hf'
    · exact List.isChain_cons_cons.mpr ⟨hrot.mp hr,h.spaced⟩
  · obtain ⟨hw,hf⟩ := uiStep_follows (fun _ => id) h.wf h.follows
      (.elapsed (timevalDiff a.now s.lastTimestamp))
    rw [if_neg hr,if_neg (hrot.not.mp hr)]
    exact ⟨h.opened,h.len,hw,hf,h.spaced⟩

/-- A tick keeps the log of the slots. -/
theorem Logged.tick (h : Logged log s) (a : TickArgs) :
    Logged (log.step (.tick a)) (tick qsort a s) := by
  obtain ⟨env,-,ht,hu⟩ := tick_eq qsort a s
  have hb := h.beforeDisplay a
  have hring := tick_ring qsort a s
  have hlen : (TickClock.tick qsort a s).historyLen=(TickClock.beforeDisplay a.now s).historyLen :=
    congrArg (fun r => r.2.1) hring
  have hstate : UiWf (TickClock.tick qsort a s).toUi ∧
      Follows (TickClock.tick qsort a s).toCapture (log.step (.tick a)).packetsAt := by
    rw [hu]
    split
    · exact uiStep_follows qsort hb.wf hb.follows (.analyse env a.hostName)
    · exact ⟨hb.wf,hb.follows⟩
  exact ⟨hb.opened.trans ht.symm,hlen.trans hb.len,hstate.1,hstate.2,hb.spaced⟩

/-- The state after every run is described by the log of its slots. -/
theorem logged_run (start : Timeval) (es : List ClockEvent) :
    Logged (slotLog start es) (clockRun qsort start es) := by
  have hrun (log : SlotLog) (s : Clocked) (h : Logged log s) :
      Logged (es.foldl SlotLog.step log) (es.foldl (clockStep qsort) s) := by
    induction es generalizing log s with
    | nil => exact h
    | cons e es ih =>
      apply ih
      cases e with
      | tick a => exact h.tick qsort a
      | packet env iptr hwDir => exact h.packet qsort env iptr hwDir
  exact hrun _ _ (logged_init start)

/-- A sum over the ages of a window is a sum over its slots. -/
theorem sum_ages {β : Type} (size : List β→ℕ) (h : size []=0) (xss : List (List β)) (n : ℕ) :
    ((List.range n).map fun i => size ((xss[i]?).getD [])).sum=((xss.take n).map size).sum := by
  induction xss generalizing n with
  | nil => simp [h]
  | cons xs xss ih =>
    cases n with
    | zero => simp
    | succ n =>
      rw [List.range_succ_eq_map,List.map_cons,List.map_map,List.sum_cons,List.take_succ_cons,
        List.map_cons,List.sum_cons,←ih n]
      rfl

/-- Bytes of the packets of one slot that satisfy a condition. -/
def slotBytes (w : Accounted→ℕ) (p : Accounted→Bool) (as : List Accounted) : ℕ :=
  ((as.filter p).map w).sum

/-- The window is made of the newest slots, as many as the division has. -/
theorem window_eq (log : SlotLog) (j : Division) :
    log.window j=log.slots.take (historyDivs j) := by
  have h2 := two_le_historyDivs j
  obtain ⟨n,hn⟩ : ∃ n,historyDivs j=n+1 := ⟨historyDivs j-1,by omega⟩
  rw [SlotLog.window,SlotLog.slots,hn,List.take_succ_cons,Nat.add_sub_cancel]

/-- The bytes of a window are the sum over its slots, by age. -/
theorem bytes_eq (log : SlotLog) (w : Accounted→ℕ) (p : Accounted→Bool) (j : Division) :
    log.bytes w p j=
      ((List.range (historyDivs j)).map fun i => slotBytes w p (log.packetsAt i)).sum := by
  have hs := sum_ages (slotBytes w p) rfl (log.slots.map LoggedSlot.packets) (historyDivs j)
  simp only [List.getElem?_map] at hs
  have hflat (slots : List LoggedSlot) :
      (((slots.flatMap LoggedSlot.packets).filter p).map w).sum=
        ((slots.map LoggedSlot.packets).map (slotBytes w p)).sum := by
    induction slots with
    | nil => rfl
    | cons slot slots ih => simp [slotBytes,ih]
  rw [SlotLog.bytes,hflat,window_eq]
  simp only [SlotLog.packetsAt]
  rw [hs,List.map_take]

/-- The slots of every division are within the ring. -/
theorem age_lt {j : Division} {i : ℕ} (h : i∈List.range (historyDivs j)) : i<40 := by
  have hd : ∀ j : Division,historyDivs j≤40 := by decide
  exact (List.mem_range.mp h).trans_le (hd j)

/-- Windows of several records add up age by age. -/
theorem sum_windows {β : Type} (pos : Slot) (bytes : β→Slot→ℕ) (fs : List β) (g : ℕ→ℕ)
    (h : ∀ i<40,(fs.map fun f => bytes f (histIdx pos i)).sum=g i) (j : Division) :
    (fs.map fun f => windowSum pos (bytes f) j).sum=((List.range (historyDivs j)).map g).sum := by
  have hall (is : List ℕ) (hi : ∀ i∈is,i<40) :
      (fs.map fun f => (is.map fun i => bytes f (histIdx pos i)).sum).sum=(is.map g).sum := by
    induction is with
    | nil => simp
    | cons i is ih =>
      simp only [List.map_cons,List.sum_cons,List.sum_map_add]
      rw [h i (hi i (List.mem_cons_self ..)),ih fun k hk => hi k (List.mem_cons_of_mem _ hk)]
  exact hall _ fun i hi => age_lt hi

/-- The packets of a line in a slot are those of its flows. -/
theorem sum_flowsOf {o : OptionsT} {u : Ui} {f : ℕ→List Accounted} (hw : UiWf u)
    (hf : Follows u.toCapture f) (k : AddrPair) (w : Accounted→ℕ) {i : ℕ} (hi : i<40) :
    ((flowsOf o u k).map fun e => flowSum w e.1 (f i)).sum=
      slotBytes w (fun a => aggregate o a.key=k) (f i) := by
  have hn : (keys (flowsOf o u k)).Nodup :=
    (List.filter_sublist.map Prod.fst).nodup hw.capture.nodup
  have hin (a : Accounted) (ha : a∈(f i).filter fun a => aggregate o a.key=k) :
      a.key∈keys (flowsOf o u k) := by
    obtain ⟨hm,hk⟩ := List.mem_filter.mp ha
    obtain ⟨e,he,hek⟩ := List.mem_map.mp (hf.present i hi a hm)
    refine List.mem_map.mpr ⟨e,List.mem_filter.mpr ⟨he,?_⟩,hek⟩
    rw [hek]
    exact hk
  have hs := sum_by_key hn Accounted.key w _ hin
  rw [keys,List.map_map] at hs
  rw [slotBytes,←hs]
  refine congrArg List.sum (List.map_congr_left fun e he => ?_)
  have hk : aggregate o e.1=k := by simpa using (List.mem_filter.mp he).2
  rw [flowSum,Function.comp_apply,List.filter_filter]
  refine congrArg (fun as => (List.map w as).sum) (List.filter_congr fun a _ => ?_)
  by_cases ha : a.key=e.1
  · simp [ha,hk]
  · simp [ha]

/-- The times that the ticks read. -/
def tickTimes (es : List ClockEvent) : List Timeval :=
  es.filterMap fun
    | .tick a => some a.now
    | .packet .. => none

/-- The clock never goes back. -/
def Nondecreasing (start : Timeval) (es : List ClockEvent) : Prop :=
  (start::tickTimes es).Pairwise fun earlier later => 0≤timevalDiff later earlier

/-- Slots are opened at the start or by a tick. -/
theorem opened_mem (start : Timeval) (es : List ClockEvent) :
    (slotLog start es).current.opened∈start::tickTimes es := by
  induction es using List.reverseRecOn with
  | nil => exact List.mem_cons_self ..
  | append_singleton es e ih =>
    have hstep : slotLog start (es++[e])=(slotLog start es).step e := by simp [slotLog]
    have hold : (slotLog start es).current.opened∈start::tickTimes (es++[e]) := by
      rw [tickTimes,List.filterMap_append,←List.cons_append]
      exact List.mem_append_left _ ih
    rw [hstep]
    cases e with
    | packet env iptr hwDir =>
      rw [(step_packet ..).1]
      exact hold
    | tick a =>
      by_cases hr : timevalDiff a.now (slotLog start es).current.opened≥resolution
      · simp only [SlotLog.step,if_pos hr]
        simp [tickTimes]
      · simp only [SlotLog.step,if_neg hr]
        exact hold

/-- A tick is not before the opening of the slot that it finds. -/
theorem opened_le {start : Timeval} {es : List ClockEvent} {a : TickArgs}
    (h : Nondecreasing start (es++[.tick a])) :
    0≤timevalDiff a.now (slotLog start es).current.opened := by
  have hs : start::tickTimes (es++[.tick a])=(start::tickTimes es)++[a.now] := by
    simp [tickTimes]
  rw [Nondecreasing,hs,List.pairwise_append] at h
  exact h.2.2 _ (opened_mem start es) _ (List.mem_singleton_self _)

/-- If the clock does not run backwards, the elapsed part of the slot is the time since it was
opened. -/
theorem Logged.elapsed (h : Logged log s) (a : TickArgs)
    (ha : 0≤timevalDiff a.now log.current.opened) :
    (TickClock.beforeDisplay a.now s).slotElapsed=
      timevalDiff a.now (log.step (.tick a)).current.opened := by
  have hself (t : Timeval) : timevalDiff t t=0 := by rw [timevalDiff_eq,sub_self]
  have hrot : rotates a.now s ↔ timevalDiff a.now log.current.opened≥resolution := by
    rw [rotates,h.opened]
  unfold TickClock.beforeDisplay tickElapsed tickRotate SlotLog.step
  dsimp only
  by_cases hr : rotates a.now s
  · rw [if_pos hr,if_pos (hrot.mp hr)]
    simp only [setSlotElapsed,hself,resolution]
    norm_num
  · have hlt := hrot.not.mp hr
    rw [if_neg hr,if_neg hlt,←h.opened]
    simp only [setSlotElapsed]
    rw [if_neg (not_lt.mpr ha),if_neg (by linarith [not_le.mp hlt])]

/-- The number of closed slots in the window. -/
theorem length_closed {u : Ui} (hl : u.historyLen=min historyLength (1+log.closed.length))
    (j : Division) : (log.closed.take (historyDivs j-1)).length=fullSlots u j-1 := by
  have hd : ∀ j : Division,historyDivs j≤40 := by decide
  have hj := hd j
  simp only [historyLength] at hl
  rw [List.length_take,fullSlots,hl]
  omega

/-- The window is as long as its closed slots and the current one. -/
theorem covered_eq (log : SlotLog) (now : Timeval) (j : Division) :
    log.covered now j=timevalDiff now log.current.opened+
      timevalDiff log.current.opened (log.oldest j).opened := by
  rw [SlotLog.covered,timevalDiff_eq,timevalDiff_eq,timevalDiff_eq]
  ring

/-- The span of the closed slots is what `history_length` takes it to be when
they were all closed in time. -/
theorem span_closed (h : Logged log s) (j : Division) :
    timevalDiff log.current.opened (log.oldest j).opened=
        ((log.closed.take (historyDivs j-1)).length : ℚ)*resolution ↔
      (log.window j).IsChain fun newer older =>
        timevalDiff newer.opened older.opened=resolution := by
  have hs : (log.window j).IsChain fun newer older =>
      resolution≤timevalDiff newer.opened older.opened := by
    rw [window_eq]
    exact h.spaced.take _
  rw [isChain_opened (r:=fun d => resolution≤d)] at hs
  rw [isChain_opened (r:=fun d => d=resolution)]
  simp only [SlotLog.window,List.map_cons] at hs ⊢
  rw [←span_eq_iff _ _ hs,timevalDiff_eq,List.length_map]
  have hlast : seconds (log.oldest j).opened=
      (seconds log.current.opened::(log.closed.take (historyDivs j-1)).map fun slot =>
        seconds slot.opened).getLast (List.cons_ne_nil _ _) := by
    simp only [SlotLog.oldest,SlotLog.window,←List.map_cons (f:=fun slot : LoggedSlot =>
      seconds slot.opened),List.getLast_map]
  rw [hlast]

/-- The length of a division is the time that its window covers when the
slots were on time. -/
theorem historyLengthOf_iff {now : Timeval} (h : Logged log s)
    (he : s.slotElapsed=timevalDiff now log.current.opened) (h0 : 0≤ s.slotElapsed) (j : Division) :
    historyLengthOf s.toUi j=log.covered now j ↔ log.OnTime now j := by
  have hlen := h.len
  have hspan := span_closed h j
  rw [length_closed hlen] at hspan
  rw [covered_eq,SlotLog.OnTime,←hspan,←he]
  simp only [historyLength] at hlen
  cases hc : log.closed with
  | nil =>
    have hone : s.historyLen=1 := by
      rw [hlen,hc]
      rfl
    have hself : timevalDiff log.current.opened (log.oldest j).opened=0 := by
      simp only [SlotLog.oldest,SlotLog.window,hc,List.take_nil,List.getLast_singleton,
        timevalDiff_eq,sub_self]
    have hfull : fullSlots s.toUi j=1 := by
      have h2 := two_le_historyDivs j
      rw [fullSlots,hone]
      omega
    rw [historyLengthOf_first hone,hself,hfull,resolution]
    by_cases hp : s.slotElapsed>0
    · simp [hp]
    · have hz : s.slotElapsed=0 := le_antisymm (not_lt.mp hp) h0
      simp [hz]
  | cons slot slots =>
    have htwo : 2≤ s.historyLen := by
      rw [hlen,hc,List.length_cons]
      omega
    obtain ⟨hl,hf⟩ := historyLengthOf_later htwo j
    rw [hl,Nat.cast_sub (by omega : 1≤fullSlots s.toUi j),Nat.cast_one]
    constructor
    · intro heq
      exact ⟨by linarith,by simp⟩
    · rintro ⟨heq,-⟩
      linarith

/-- What is shown after a tick are bytes over elapsed time. -/
structure Exact (o : OptionsT) (log : SlotLog) (now : Timeval) (painted : Prop) (j : Division)
    (u : Ui) : Prop where
  /-- The length of the division is the time that its window covers. -/
  length : historyLengthOf u j=log.covered now j
  /-- The totals are the bytes of all packets in the window over that time. -/
  totals : painted→
    u.totals.recv j=(log.bytes incomingLen (fun _ => true) j : ℕ)/log.covered now j ∧
      u.totals.sent j=(log.bytes outgoingLen (fun _ => true) j : ℕ)/log.covered now j
  /-- A line has the bytes of the packets of its flows over that time. -/
  rows : painted→∀ e∈lines u,
    e.2.recv j=(log.bytes recvLen (fun a => aggregate o a.key=e.1) j : ℕ)/log.covered now j ∧
      e.2.sent j=(log.bytes sentLen (fun a => aggregate o a.key=e.1) j : ℕ)/log.covered now j

/-- A slot array that counts all packets adds up to the bytes of the window. -/
theorem windowSum_bytes (pos : Slot) (log : SlotLog) (bytes : Slot→ℕ) (w : Accounted→ℕ)
    (h : ∀ i<40,bytes (histIdx pos i)=((log.packetsAt i).map w).sum) (j : Division) :
    windowSum pos bytes j=log.bytes w (fun _ => true) j := by
  have hall (as : List Accounted) : (as.map w).sum=slotBytes w (fun _ => true) as := by
    simp [slotBytes]
  have hs := sum_windows pos (fun _ : Unit => bytes) [()] _ (fun i hi => by
    simpa [hall] using h i hi) j
  rw [bytes_eq]
  simpa using hs

/-- The flows of a line add up to the bytes of their packets in the window. -/
theorem flowsOf_bytes {o : OptionsT} {u : Ui} (hw : UiWf u)
    (hf : Follows u.toCapture log.packetsAt) (k : AddrPair) (side : HistoryType→Slot→ℕ)
    (w : Accounted→ℕ)
    (hb : ∀ f∈flows u.toCapture,∀ i<40,
      side f.2 (histIdx u.historyPos i)=flowSum w f.1 (log.packetsAt i)) (j : Division) :
    ((flowsOf o u k).map fun f => windowSum u.historyPos (side f.2) j).sum=
      log.bytes w (fun a => aggregate o a.key=k) j := by
  rw [bytes_eq]
  apply sum_windows
  intro i hi
  rw [←sum_flowsOf hw hf k w hi]
  exact congrArg List.sum (List.map_congr_left fun f hm =>
    hb f (List.mem_of_mem_filter hm) i hi)

/-- An analysis shows bytes over the length of the division. -/
theorem analyseData_rates {env : Env} (hostName : AddressFamily→In6Addr→Option (List Char))
    (h : Logged log s) (hp : env.options.paused=false) (j : Division) :
    let u := analyseData qsort env hostName s.toUi
    let length := historyLengthOf s.toUi j
    (u.totals.recv j=(log.bytes incomingLen (fun _ => true) j : ℕ)/length ∧
        u.totals.sent j=(log.bytes outgoingLen (fun _ => true) j : ℕ)/length) ∧
      ∀ e∈lines u,
        e.2.recv j=(log.bytes recvLen (fun a => aggregate env.options a.key=e.1) j : ℕ)/length ∧
        e.2.sent j=(log.bytes sentLen (fun a => aggregate env.options a.key=e.1) j : ℕ)/length := by
  intro u length
  obtain ⟨u₃,hu,hk,hw₃,hr⟩ := analyseData_spec qsort env hostName h.wf hp
  have hf₃ : Follows u₃.toCapture log.packetsAt := hk.follows h.follows
  have hlen : historyLengthOf u₃ j=length := congrFun hk.historyLengthOf j
  have hpos := historyLengthOf_pos hw₃ j
  have hinv : invHistLen u₃ j=1/length := by rw [←hlen]; exact if_pos hpos
  obtain ⟨hcap,hsh,hlm,-,-,hT⟩ := calculateTotals_spec u₃
  have hlines : lines u=lines u₃ := by
    simp only [u,hu]
    rw [lines,hsh,hlm,lines]
  have htot : u.totals=(accumulate u₃.historyPos u₃.historyTotals u₃.totals).divide
      (historyLengthOf u₃) := by
    simp only [u,hu]
    exact hT
  constructor
  · rw [htot,accumulate_eq,hk.totals]
    simp only [HostPairLine.divide,HostPairLine.zero,hpos,gt_iff_lt,if_true,zero_add]
    rw [hlen,windowSum_bytes _ log _ _ fun i hi => (hf₃.totals i hi).1,
      windowSum_bytes _ log _ _ fun i hi => (hf₃.totals i hi).2]
    exact ⟨rfl,rfl⟩
  · intro e he
    rw [hlines] at he
    obtain ⟨h1,h2⟩ := (hr.line he).1 j
    rw [h1,h2,hinv,flowsOf_bytes hw₃ hf₃ e.1 _ _ fun f hm i hi => (hf₃.slots f hm i hi).1,
      flowsOf_bytes hw₃ hf₃ e.1 _ _ fun f hm i hi => (hf₃.slots f hm i hi).2]
    constructor <;> ring

/-- One tick more is one step more of the log and of the run. -/
theorem run_tick (start : Timeval) (es : List ClockEvent) (a : TickArgs) :
    slotLog start (es++[.tick a])=(slotLog start es).step (.tick a) ∧
      clockRun qsort start (es++[.tick a])=tick qsort a (clockRun qsort start es) := by
  constructor <;> simp [slotLog,clockRun,clockStep]

/-- After a tick the length of a division is the one that its display part used. -/
theorem historyLengthOf_tick (a : TickArgs) (s : Clocked) (j : Division) :
    historyLengthOf (tick qsort a s).toUi j=historyLengthOf (beforeDisplay a.now s).toUi j := by
  have hring := tick_ring qsort a s
  simp only [ring,Prod.mk.injEq] at hring
  simp only [historyLengthOf,hring]

/-- When the lengths of the divisions are exact after a tick. -/
theorem length_exact_iff {start : Timeval} {es : List ClockEvent} {a : TickArgs}
    (h : Nondecreasing start (es++[.tick a])) (j : Division) :
    historyLengthOf (clockRun qsort start (es++[.tick a])).toUi j=
        (slotLog start (es++[.tick a])).covered a.now j ↔
      (slotLog start (es++[.tick a])).OnTime a.now j := by
  have hl := logged_run qsort start es
  have he := hl.elapsed a (opened_le h)
  have hb := hl.beforeDisplay a
  obtain ⟨hlog,hrun⟩ := run_tick qsort start es a
  rw [hlog,hrun,historyLengthOf_tick]
  exact historyLengthOf_iff hb he hb.wf.elapsed j

/-- After every tick of a run whose clock never goes back, and for every
division, the divisor of the rates is the time that the window covers, and the
rates are its bytes over that time, if and only if every closed slot of the
window was closed exactly on time and, before the first rotation, time has
passed. -/
theorem rates_exact_iff (start : Timeval) (es : List ClockEvent) (a : TickArgs) (j : Division)
    (h : Nondecreasing start (es++[.tick a])) :
    Exact a.env.options (slotLog start (es++[.tick a])) a.now
        (Repaints a (clockRun qsort start es) ∧ a.env.options.paused=false) j
        (clockRun qsort start (es++[.tick a])).toUi ↔
      (slotLog start (es++[.tick a])).OnTime a.now j := by
  have hiff := length_exact_iff qsort h j
  have hb := (logged_run qsort start es).beforeDisplay a
  obtain ⟨hlog,hrun⟩ := run_tick qsort start es a
  constructor
  · intro hx
    exact hiff.mp hx.length
  · intro hon
    have hcov := hiff.mpr hon
    obtain ⟨env,ho,-,hu⟩ := tick_eq qsort a (clockRun qsort start es)
    have hlen := historyLengthOf_tick qsort a (clockRun qsort start es) j
    rw [←hlog] at hb
    rw [←hrun] at hu hlen
    have hpaint (hp : Repaints a (clockRun qsort start es) ∧ a.env.options.paused=false) :=
      analyseData_rates qsort a.hostName hb (ho ▸ hp.2) j
    refine ⟨hcov,fun hp => ?_,fun hp => ?_⟩
    · rw [←hcov,hlen,hu,if_pos hp.1]
      exact (hpaint hp).1
    · rw [←hcov,hlen,hu,if_pos hp.1,←ho]
      exact (hpaint hp).2

/-- A tick with default options. -/
def bareTick (sec usec : ℤ) : TickArgs := ⟨⟨sec,usec⟩,bareEnv,[],fun _ _ => none⟩

/-- Rates are exact after ticks at one second and half a second later. -/
theorem rates_exact_iff_onTime :
    Exact bareEnv.options (slotLog ⟨0,0⟩ [.tick (bareTick 1 0),.tick (bareTick 1 500000)])
      ⟨1,500000⟩
      (Repaints (bareTick 1 500000) (clockRun (fun _ => id) ⟨0,0⟩ [.tick (bareTick 1 0)]) ∧
        bareEnv.options.paused=false) 0
      (clockRun (fun _ => id) ⟨0,0⟩ [.tick (bareTick 1 0),.tick (bareTick 1 500000)]).toUi := by
  have hlog : slotLog ⟨0,0⟩ [.tick (bareTick 1 0),.tick (bareTick 1 500000)]=
      ⟨⟨⟨1,0⟩,[]⟩,[⟨⟨0,0⟩,[]⟩]⟩ := by
    norm_num [slotLog,SlotLog.step,SlotLog.slots,bareTick,timevalDiff,resolution]
  apply (rates_exact_iff (fun _ => id) ⟨0,0⟩ [.tick (bareTick 1 0)] (bareTick 1 500000) 0 ?_).mpr
  · rw [List.singleton_append,hlog]
    norm_num [SlotLog.OnTime,SlotLog.window,timevalDiff,resolution,historyDivs]
  · have ht : tickTimes ([.tick (bareTick 1 0)]++[.tick (bareTick 1 500000)])=
        [⟨1,0⟩,⟨1,500000⟩] := rfl
    rw [Nondecreasing,ht]
    norm_num [timevalDiff]

/-- A tick half a second late: the window covers a second and a half, and the
divisor is one second. -/
theorem rates_inexact_late :
    Nondecreasing ⟨0,0⟩ [.tick (bareTick 1 500000)] ∧
      ¬Exact bareEnv.options (slotLog ⟨0,0⟩ [.tick (bareTick 1 500000)]) ⟨1,500000⟩
        (Repaints (bareTick 1 500000) (clockRun (fun _ => id) ⟨0,0⟩ []) ∧
          bareEnv.options.paused=false) 0
        (clockRun (fun _ => id) ⟨0,0⟩ [.tick (bareTick 1 500000)]).toUi := by
  have hm : Nondecreasing ⟨0,0⟩ ([]++[.tick (bareTick 1 500000)]) := by
    have ht : tickTimes ([]++[.tick (bareTick 1 500000)])=[⟨1,500000⟩] := rfl
    rw [Nondecreasing,ht]
    norm_num [timevalDiff]
  have hlog : slotLog ⟨0,0⟩ ([]++[.tick (bareTick 1 500000)])=
      ⟨⟨⟨1,500000⟩,[]⟩,[⟨⟨0,0⟩,[]⟩]⟩ := by
    norm_num [slotLog,SlotLog.step,SlotLog.slots,bareTick,timevalDiff,resolution]
  refine ⟨hm,fun hx => ?_⟩
  have hon := (length_exact_iff (fun _ => id) hm 0).mp hx.length
  rw [hlog] at hon
  norm_num [SlotLog.OnTime,SlotLog.window,timevalDiff,resolution,historyDivs] at hon

end IftopColor.SlotTimes
