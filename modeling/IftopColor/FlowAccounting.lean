import IftopColor.History

/-!
# Flow accounting over whole runs

A run is any sequence of packets, each with its own capture settings, and
rotations. Its trace groups the accounted packets by slot, counted back from
the current one. The invariant ties every record to the trace: each of the
forty slots holds the bytes of the slot that many rotations ago, the last
write points at the newest slot with a packet of the flow, and a flow is
present exactly while one of the forty slots has a packet of it.
-/

namespace IftopColor.FlowAccounting

open RecordStore AddrHash PacketDirection History

/-- One call on the capture side. -/
inductive Event where
  | packet (env : Env) (iptr : Packet) (hwDir : ℤ)
  | rotate

/-- The effect of a call. -/
def step (s : Capture) : Event→Capture
  | .packet env iptr hwDir => handleIpPacket env iptr hwDir s
  | .rotate => historyRotate s

/-- The state after a run from `init_history`. -/
def run (es : List Event) : Capture := es.foldl step initHistory

/-- The packet of an event that is accounted, if there is one. -/
def Event.accounted : Event→Option Accounted
  | .packet env iptr hwDir => account env iptr hwDir
  | .rotate => none

/-- Accounted packets by age of their slot; a rotation makes all slots older. -/
def slotStep (f : ℕ→List Accounted) (e : Event) : ℕ→List Accounted :=
  match e with
  | .packet .. =>
    match e.accounted with
    | none => f
    | some a => Function.update f 0 (f 0++[a])
  | .rotate => fun i =>
    match i with
    | 0 => []
    | i+1 => f i

/-- The accounted packets of the slot `i` rotations ago, in order of arrival;
none when fewer rotations have happened. -/
def slotPackets (es : List Event) : ℕ→List Accounted := es.foldl slotStep fun _ => []

/-- Bytes of a packet on the `recv` side of its record. -/
def recvLen (a : Accounted) : ℕ := if a.sent then 0 else a.len

/-- Bytes of a packet on the `sent` side of its record. -/
def sentLen (a : Accounted) : ℕ := if a.sent then a.len else 0

/-- Bytes of a packet on the `recv` side of the totals. -/
def incomingLen (a : Accounted) : ℕ := if a.outgoing then 0 else a.len

/-- Bytes of a packet on the `sent` side of the totals. -/
def outgoingLen (a : Accounted) : ℕ := if a.outgoing then a.len else 0

/-- A weight added up over the packets of one flow. -/
def flowSum (w : Accounted→ℕ) (k : AddrPair) (as : List Accounted) : ℕ :=
  ((as.filter fun a => a.key=k).map w).sum

/-- Index of the slot of age `i`: `(HISTORY_LENGTH + history_pos - i) % HISTORY_LENGTH`. -/
def histIdx (pos : Slot) (i : ℕ) : Slot :=
  ⟨(historyLength+pos-i)%historyLength,Nat.mod_lt _ (by decide)⟩

/-- The current slot is the one of age zero. -/
theorem histIdx_zero (pos : Slot) : histIdx pos 0=pos := by
  apply Fin.ext
  have hp : pos.val<40 := pos.isLt
  simp only [histIdx,historyLength]
  omega

/-- A rotation makes every slot but the oldest one older by one. -/
theorem histIdx_nextSlot (pos : Slot) {i : ℕ} (hi : i<40) :
    histIdx (nextSlot pos) (i+1)=histIdx pos i := by
  apply Fin.ext
  have hp : pos.val<40 := pos.isLt
  simp only [histIdx,nextSlot,historyLength]
  omega

/-- Different ages below forty are different slots. -/
theorem histIdx_inj (pos : Slot) {i j : ℕ} (hi : i<40) (hj : j<40) :
    histIdx pos i=histIdx pos j ↔ i=j := by
  have hp : pos.val<40 := pos.isLt
  simp only [histIdx,historyLength,Fin.mk.injEq]
  omega

/-- Only age zero is the current slot. -/
theorem histIdx_eq_self (pos : Slot) {i : ℕ} (hi : i<40) : histIdx pos i=pos ↔ i=0 := by
  have he := histIdx_inj pos hi (by decide : 0<40)
  rwa [histIdx_zero] at he

/-- Every slot has an age below forty. -/
theorem exists_histIdx (pos slot : Slot) : ∃ i<40,slot=histIdx pos i := by
  have hp : pos.val<40 := pos.isLt
  have hs : slot.val<40 := slot.isLt
  refine ⟨(40+pos-slot)%40,Nat.mod_lt _ (by decide),?_⟩
  apply Fin.ext
  simp only [histIdx,historyLength]
  omega

/-- The slot that a rotation enters is the one of age 39. -/
theorem histIdx_oldest (pos : Slot) : histIdx pos 39=nextSlot pos := by
  apply Fin.ext
  have hp : pos.val<40 := pos.isLt
  simp only [histIdx,nextSlot,historyLength]
  omega

variable {w : Accounted→ℕ} {k : AddrPair} {as : List Accounted}

/-- A packet appended to a slot adds its weight to its own flow only. -/
theorem flowSum_append (w : Accounted→ℕ) (k : AddrPair) (as : List Accounted) (a : Accounted) :
    flowSum w k (as++[a])=flowSum w k as+if a.key=k then w a else 0 := by
  by_cases h : a.key=k <;> simp [flowSum,List.filter_append,h]

/-- A flow without packets has no bytes. -/
theorem flowSum_eq_zero (h : ∀ a∈as,a.key≠k) : flowSum w k as=0 := by
  have hf : (as.filter fun a => decide (a.key=k))=[] := by
    simpa [List.filter_eq_nil_iff] using h
  rw [flowSum,hf]
  rfl

/-- Records, totals and ring position agree with the trace. -/
structure Tracks (pos : Slot) (es : List (AddrPair×HistoryType)) (totals : HistoryType)
    (f : ℕ→List Accounted) : Prop where
  /-- Every slot of every record holds the bytes of that slot of the trace. -/
  slots : ∀ e∈es,∀ i<40,
    e.2.recv (histIdx pos i)=flowSum recvLen e.1 (f i) ∧
      e.2.sent (histIdx pos i)=flowSum sentLen e.1 (f i)
  /-- The last write points at the newest slot with a packet of the flow. -/
  last : ∀ e∈es,∃ j<40,e.2.lastWrite=histIdx pos j ∧
    (∃ a∈f j,a.key=e.1) ∧ ∀ i<j,∀ a∈f i,a.key≠e.1
  /-- Flows of the last forty slots are present. -/
  present : ∀ i<40,∀ a∈f i,a.key∈keys es
  /-- Every slot of the totals holds the bytes of that slot of the trace. -/
  totals : ∀ i<40,
    totals.recv (histIdx pos i)=((f i).map incomingLen).sum ∧
      totals.sent (histIdx pos i)=((f i).map outgoingLen).sum

/-- Nothing has been seen at the start. -/
theorem tracks_init : Tracks 0 [] HistoryType.zero fun _ => [] :=
  ⟨by simp,by simp,by simp,fun _ _ => ⟨rfl,rfl⟩⟩

/-- The order of the entries does not matter. -/
theorem Tracks.perm {pos : Slot} {es es' : List (AddrPair×HistoryType)} {totals : HistoryType}
    {f : ℕ→List Accounted} (h : Tracks pos es totals f) (hp : es'.Perm es) :
    Tracks pos es' totals f :=
  ⟨fun e he => h.slots e (hp.subset he),fun e he => h.last e (hp.subset he),
    fun i hi a ha => (hp.map Prod.fst).symm.subset (h.present i hi a ha),h.totals⟩

/-- The trace with one more packet in the current slot. -/
abbrev addPacket (a : Accounted) (f : ℕ→List Accounted) : ℕ→List Accounted :=
  Function.update f 0 (f 0++[a])

/-- Adding a packet to the trace adds its weight at age zero. -/
theorem flowSum_addPacket (w : Accounted→ℕ) (k : AddrPair) (a : Accounted)
    (f : ℕ→List Accounted) (i : ℕ) :
    flowSum w k (addPacket a f i)=flowSum w k (f i)+if i=0 ∧ a.key=k then w a else 0 := by
  by_cases hi : i=0
  · subst hi
    rw [addPacket,Function.update_self,flowSum_append]
    simp
  · rw [addPacket,Function.update_of_ne hi]
    simp [hi]

/-- The counters of a credited record, by age. -/
theorem credit_slots (pos : Slot) (a : Accounted) (r : HistoryType) {i : ℕ}
    (hi : i<40) :
    (r.credit pos a).recv (histIdx pos i)=r.recv (histIdx pos i)+(if i=0 then recvLen a else 0) ∧
      (r.credit pos a).sent (histIdx pos i)=
        r.sent (histIdx pos i)+(if i=0 then sentLen a else 0) := by
  have hp := histIdx_eq_self pos hi
  by_cases h0 : i=0
  · have he := hp.mpr h0
    rw [he]
    cases hs : a.sent <;> simp [HistoryType.credit,recvLen,sentLen,hs,h0]
  · have he : histIdx pos i≠pos := fun he => h0 (hp.mp he)
    cases hs : a.sent <;> simp [HistoryType.credit,hs,h0,Function.update_of_ne he]

/-- The counters of the credited totals, by age. -/
theorem creditTotals_slots (pos : Slot) (a : Accounted) (r : HistoryType) {i : ℕ}
    (hi : i<40) :
    (r.creditTotals pos a).recv (histIdx pos i)=
        r.recv (histIdx pos i)+(if i=0 then incomingLen a else 0) ∧
      (r.creditTotals pos a).sent (histIdx pos i)=
        r.sent (histIdx pos i)+(if i=0 then outgoingLen a else 0) := by
  have hc := credit_slots pos {a with sent := a.outgoing} r hi
  unfold HistoryType.creditTotals
  unfold HistoryType.credit recvLen sentLen at hc
  unfold incomingLen outgoingLen
  cases ho : a.outgoing <;> simpa [ho] using hc

/-- A record without any bytes. -/
def Blank (r : HistoryType) : Prop := ∀ i,r.recv i=0 ∧ r.sent i=0

/-- The packets of age zero get the packet that is added, and no others do. -/
theorem mem_addPacket {a b : Accounted} {f : ℕ→List Accounted} {i : ℕ} :
    b∈addPacket a f i ↔ b∈f i ∨ (i=0 ∧ b=a) := by
  by_cases hi : i=0
  · subst hi
    simp [addPacket]
  · simp [addPacket,hi]

/-- A credited record was last written in the current slot. -/
theorem credit_lastWrite (pos : Slot) (a : Accounted) (r : HistoryType) :
    (r.credit pos a).lastWrite=pos := by
  cases hs : a.sent <;> simp [HistoryType.credit,hs]

/-- A packet keeps the invariant, for its own flow and for all others. -/
theorem tracks_packet {pos : Slot} {es : List (AddrPair×HistoryType)} {totals z : HistoryType}
    {f : ℕ→List Accounted} (h : Tracks pos es totals f) (a : Accounted) (hz : Blank z) :
    Tracks pos (upsert a.key z (HistoryType.credit pos a) es) (totals.creditTotals pos a)
      (addPacket a f) := by
  constructor
  · intro e he i hi
    rw [flowSum_addPacket,flowSum_addPacket]
    rcases mem_upsert.mp he with ⟨hk,he⟩|⟨hk,⟨r,hr,hv⟩|⟨hn,hv⟩⟩
    · simpa [Ne.symm hk] using h.slots e he i hi
    · obtain ⟨h1,h2⟩ := h.slots (a.key,r) hr i hi
      obtain ⟨c1,c2⟩ := credit_slots pos a r hi
      rw [hv,c1,c2,hk,h1,h2]
      simp
    · -- the record is new: no packet of the flow is in the last forty slots
      have hno : ∀ b∈f i,b.key≠a.key := fun b hb he => hn (he ▸ h.present i hi b hb)
      obtain ⟨c1,c2⟩ := credit_slots pos a z hi
      rw [hv,c1,c2,hk,flowSum_eq_zero hno,flowSum_eq_zero hno,(hz _).1,(hz _).2]
      simp
  · intro e he
    rcases mem_upsert.mp he with ⟨hk,he⟩|⟨hk,hv⟩
    · obtain ⟨j,hj,hw,⟨b,hb,hbk⟩,hnew⟩ := h.last e he
      refine ⟨j,hj,hw,⟨b,mem_addPacket.mpr (.inl hb),hbk⟩,?_⟩
      intro i hi c hc
      rcases mem_addPacket.mp hc with hc|⟨-,rfl⟩
      · exact hnew i hi c hc
      · exact Ne.symm hk
    · have hw : e.2.lastWrite=pos := by
        rcases hv with ⟨r,-,hv⟩|⟨-,hv⟩ <;> rw [hv] <;> exact credit_lastWrite ..
      have ha : a∈addPacket a f 0 := mem_addPacket.mpr (.inr ⟨rfl,rfl⟩)
      exact ⟨0,by decide,by rw [hw,histIdx_zero],⟨a,ha,hk.symm⟩,by simp⟩
  · intro i hi b hb
    rw [mem_keys_upsert]
    rcases mem_addPacket.mp hb with hb|⟨-,rfl⟩
    · exact .inr (h.present i hi b hb)
    · exact .inl rfl
  · intro i hi
    obtain ⟨h1,h2⟩ := h.totals i hi
    obtain ⟨c1,c2⟩ := creditTotals_slots pos a totals hi
    rw [c1,c2,h1,h2]
    by_cases h0 : i=0
    · subst h0
      simp [addPacket]
    · simp [addPacket,h0]

/-- The trace after a rotation. -/
abbrev shift (f : ℕ→List Accounted) : ℕ→List Accounted
  | 0 => []
  | i+1 => f i

/-- The cleared slot is empty and the others are as before. -/
theorem clearSlot_slots (pos : Slot) (r : HistoryType) {i : ℕ} (hi : i<40) :
    (r.clearSlot (nextSlot pos)).recv (histIdx (nextSlot pos) i)=
        (if i=0 then 0 else r.recv (histIdx pos (i-1))) ∧
      (r.clearSlot (nextSlot pos)).sent (histIdx (nextSlot pos) i)=
        (if i=0 then 0 else r.sent (histIdx pos (i-1))) := by
  by_cases h0 : i=0
  · subst h0
    simp [histIdx_zero,HistoryType.clearSlot]
  · have hne : histIdx (nextSlot pos) i≠nextSlot pos :=
      fun he => h0 ((histIdx_eq_self _ hi).mp he)
    have hs : histIdx (nextSlot pos) i=histIdx pos (i-1) := by
      rw [←histIdx_nextSlot pos (by omega : i-1<40)]
      congr 1
      omega
    rw [HistoryType.clearSlot,if_neg h0,if_neg h0,←hs]
    exact ⟨Function.update_of_ne hne _ _,Function.update_of_ne hne _ _⟩

/-- What is left after a rotation are the records that were last written in another slot,
with the new slot cleared. -/
theorem mem_expire {pos : Slot} {es : List (AddrPair×HistoryType)} {e : AddrPair×HistoryType} :
    e∈expire pos es ↔ ∃ r,(e.1,r)∈es ∧ r.lastWrite≠pos ∧ e.2=r.clearSlot pos := by
  constructor
  · intro he
    obtain ⟨⟨k,r⟩,hm,rfl⟩ := List.mem_map.mp he
    obtain ⟨hm,hw⟩ := List.mem_filter.mp hm
    exact ⟨r,hm,by simpa using hw,rfl⟩
  · rintro ⟨r,hm,hw,hv⟩
    exact List.mem_map.mpr ⟨(e.1,r),List.mem_filter.mpr ⟨hm,by simpa using hw⟩,Prod.ext rfl hv.symm⟩

/-- A flow with a packet that is less than forty slots old was last written in a slot that is
not cleared next. -/
theorem Tracks.lastWrite_ne {pos : Slot} {es : List (AddrPair×HistoryType)} {totals : HistoryType}
    {f : ℕ→List Accounted} (h : Tracks pos es totals f) {k : AddrPair} {r : HistoryType}
    (hm : (k,r)∈es) {i : ℕ} (hi : i<39) {b : Accounted} (hb : b∈f i) (hk : b.key=k) :
    r.lastWrite≠nextSlot pos := by
  obtain ⟨j,hj,hl,-,hnew⟩ := h.last (k,r) hm
  have hji : j ≤ i := by
    by_contra hlt
    exact hnew i (by omega) b hb hk
  rw [hl,←histIdx_oldest pos]
  intro he
  have heq := (histIdx_inj pos hj (by decide)).mp he
  omega

/-- A rotation keeps the invariant: exactly the flows whose newest packet is
forty slots old disappear. -/
theorem tracks_rotate {pos : Slot} {es : List (AddrPair×HistoryType)} {totals : HistoryType}
    {f : ℕ→List Accounted} (h : Tracks pos es totals f) :
    Tracks (nextSlot pos) (expire (nextSlot pos) es) (totals.clearSlot (nextSlot pos))
      (shift f) := by
  constructor
  · intro e he i hi
    obtain ⟨r,hr,-,hv⟩ := mem_expire.mp he
    obtain ⟨c1,c2⟩ := clearSlot_slots pos r hi
    rw [hv,c1,c2]
    cases i with
    | zero => exact ⟨rfl,rfl⟩
    | succ i => exact h.slots (e.1,r) hr i (by omega)
  · intro e he
    obtain ⟨r,hr,hw,hv⟩ := mem_expire.mp he
    obtain ⟨j,hj,hl,hb,hnew⟩ := h.last (e.1,r) hr
    have hj' : j+1<40 := by
      by_contra hge
      have he : j=39 := by omega
      exact hw (by rw [hl,he,histIdx_oldest pos])
    refine ⟨j+1,hj',?_,hb,?_⟩
    · rw [hv,histIdx_nextSlot pos hj]
      exact hl
    · intro i hi b hb
      cases i with
      | zero => simp at hb
      | succ i => exact hnew i (by omega) b hb
  · intro i hi b hb
    cases i with
    | zero => simp at hb
    | succ i =>
      obtain ⟨⟨k,r⟩,hm,hk⟩ := List.mem_map.mp (h.present i (by omega) b hb)
      have hw := h.lastWrite_ne hm (by omega) hb hk.symm
      exact List.mem_map.mpr ⟨(k,r.clearSlot (nextSlot pos)),mem_expire.mpr ⟨r,hm,hw,rfl⟩,hk⟩
  · intro i hi
    obtain ⟨c1,c2⟩ := clearSlot_slots pos totals hi
    rw [c1,c2]
    cases i with
    | zero => exact ⟨rfl,rfl⟩
    | succ i => exact h.totals i (by omega)

/-- A new record has no bytes yet, whatever process it is attributed to. -/
theorem newRecord_blank (env : Env) (ap : AddrPair) :
    Blank (newRecord env ap) ∧ (newRecord env ap).totalRecv=0 ∧
      (newRecord env ap).totalSent=0 := by
  unfold newRecord
  split
  · split <;> exact ⟨fun _ => ⟨rfl,rfl⟩,rfl,rfl⟩
  · exact ⟨fun _ => ⟨rfl,rfl⟩,rfl,rfl⟩

/-- The state agrees with a trace. -/
def Follows (s : Capture) (f : ℕ→List Accounted) : Prop :=
  Tracks s.historyPos (flows s) s.historyTotals f

variable {frame : List ℕ} {s : Capture} {f : ℕ→List Accounted}

/-- Every call keeps the state well formed and in agreement with the trace. -/
theorem step_follows (h : Wf frame s) (ht : Follows s f) (e : Event) :
    Wf frame (step s e) ∧ Follows (step s e) (slotStep f e) := by
  cases e with
  | packet env iptr hwDir =>
    cases ha : account env iptr hwDir with
    | none =>
      have hs : step s (.packet env iptr hwDir)=s := by simp only [step,handleIpPacket,ha]
      have hf : slotStep f (.packet env iptr hwDir)=f := by simp only [slotStep,Event.accounted,ha]
      rw [hs,hf]
      exact ⟨h,ht⟩
    | some a =>
      have hs : step s (.packet env iptr hwDir)=recordPacket env a s := by
        simp only [step,handleIpPacket,ha]
      have hf : slotStep f (.packet env iptr hwDir)=addPacket a f := by
        simp only [slotStep,Event.accounted,ha]
      obtain ⟨hw,hfl⟩ := recordPacket_spec env a h
      obtain ⟨hp,-,hT⟩ := recordPacket_ring env a s
      rw [hs,hf,Follows,hp,hT]
      exact ⟨hw,(tracks_packet ht a (newRecord_blank env a.key).1).perm hfl⟩
  | rotate =>
    have hf : slotStep f .rotate=shift f := by
      funext i
      cases i <;> rfl
    obtain ⟨hw,hfl,hT,hp,-⟩ := historyRotate_spec h
    rw [step,hf,Follows,hfl,hT,hp]
    exact ⟨hw,tracks_rotate ht⟩

/-- The number of slots in use never shrinks. -/
theorem step_historyLen (h : Wf frame s) (e : Event) : s.historyLen≤(step s e).historyLen := by
  cases e with
  | packet env iptr hwDir =>
    cases ha : account env iptr hwDir with
    | none => simp only [step,handleIpPacket,ha,le_refl]
    | some a =>
      simp only [step,handleIpPacket,ha]
      exact (recordPacket_ring env a s).2.1.ge
  | rotate =>
    rw [step,(historyRotate_spec h).2.2.2.2]
    split <;> omega

/-- Any continuation of a state that agrees with a trace agrees with the
continued trace. -/
theorem foldl_follows (es : List Event) (h : Wf frame s) (ht : Follows s f) :
    Wf frame (es.foldl step s) ∧ Follows (es.foldl step s) (es.foldl slotStep f) := by
  induction es generalizing s f with
  | nil => exact ⟨h,ht⟩
  | cons e es ih =>
    obtain ⟨hw,hf⟩ := step_follows h ht e
    exact ih hw hf

/-- Every run leads to a well-formed state that agrees with the run's trace. -/
theorem run_follows (es : List Event) : Wf [] (run es) ∧ Follows (run es) (slotPackets es) := by
  apply foldl_follows es wf_init
  rw [Follows,flows_init]
  exact tracks_init

/-- The state after one more call is reached by its step. -/
theorem run_append (es : List Event) (e : Event) : run (es++[e])=step (run es) e := by
  simp [run]

/-- Accounted packets of a sequence of calls. -/
def accountedIn (es : List Event) : List Accounted := es.filterMap Event.accounted

/-- Packets of a slot of the trace come from calls of the run. -/
theorem mem_slotPackets {es : List Event} {i : ℕ} {a : Accounted} (h : a∈slotPackets es i) :
    ∃ e∈es,e.accounted=some a := by
  induction es using List.reverseRecOn generalizing i with
  | nil => simp [slotPackets] at h
  | append_singleton es e ih =>
    have hold : ∀ j,a∈slotPackets es j→∃ e'∈es++[e],e'.accounted=some a := by
      intro j hj
      obtain ⟨e',he',ha⟩ := ih hj
      exact ⟨e',List.mem_append_left _ he',ha⟩
    rw [slotPackets,List.foldl_append,List.foldl_cons,List.foldl_nil,←slotPackets] at h
    cases e with
    | rotate =>
      cases i with
      | zero => simp [slotStep] at h
      | succ i => exact hold i h
    | packet env iptr hwDir =>
      cases hacc : (Event.packet env iptr hwDir).accounted with
      | none => exact hold i (by simpa [slotStep,hacc] using h)
      | some b =>
        simp only [slotStep,hacc] at h
        by_cases hi : i=0
        · subst hi
          rw [Function.update_self] at h
          rcases List.mem_append.mp h with h|h
          · exact hold 0 h
          · rw [List.mem_singleton.mp h]
            exact ⟨_,by simp,hacc⟩
        · rw [Function.update_of_ne hi] at h
          exact hold i h

/-- The record of `k` was created by the first call after `old` and is still
there; the totals count that call and all later ones. -/
def TotalsSince (k : AddrPair) (r : HistoryType) (old : List Event) (e : Event)
    (new : List Event) : Prop :=
  k∉keys (flows (run old)) ∧ (∀ mid,mid<+:new→k∈keys (flows (run (old++e::mid)))) ∧
    r.totalRecv=flowSum recvLen k (accountedIn (e::new)) ∧
    r.totalSent=flowSum sentLen k (accountedIn (e::new))

/-- One more call after which the record is still there. -/
theorem TotalsSince.extend {k : AddrPair} {r r' : HistoryType} {old new : List Event} {e : Event}
    (h : TotalsSince k r old e new) (x : Event) (hk : k∈keys (flows (run (old++e::(new++[x])))))
    (hr : r'.totalRecv=r.totalRecv+flowSum recvLen k (accountedIn [x]))
    (hs : r'.totalSent=r.totalSent+flowSum sentLen k (accountedIn [x])) :
    TotalsSince k r' old e (new++[x]) := by
  obtain ⟨hno,hmid,htr,hts⟩ := h
  have hsum (w : Accounted→ℕ) : flowSum w k (accountedIn (e::(new++[x])))=
      flowSum w k (accountedIn (e::new))+flowSum w k (accountedIn [x]) := by
    rw [←List.cons_append,accountedIn,List.filterMap_append,flowSum,List.filter_append,
      List.map_append,List.sum_append]
    rfl
  refine ⟨hno,?_,by rw [hr,htr,hsum],by rw [hs,hts,hsum]⟩
  intro mid hm
  rcases List.prefix_concat_iff.mp hm with rfl|hm
  · exact hk
  · exact hmid mid hm

/-- Crediting a packet adds its length to the total of its side. -/
theorem credit_totals (pos : Slot) (a : Accounted) (r : HistoryType) :
    (r.credit pos a).totalRecv=r.totalRecv+recvLen a ∧
      (r.credit pos a).totalSent=r.totalSent+sentLen a := by
  cases hs : a.sent <;> simp [HistoryType.credit,recvLen,sentLen,hs]

/-- A record after one more event was there before it, or is new; its totals grow by the
packets of the event. -/
theorem record_step (es : List Event) (x : Event) {k : AddrPair} {r : HistoryType}
    (h : (k,r)∈flows (run (es++[x]))) :
    (∃ r₀,(k,r₀)∈flows (run es) ∧
        r.totalRecv=r₀.totalRecv+flowSum recvLen k (accountedIn [x]) ∧
        r.totalSent=r₀.totalSent+flowSum sentLen k (accountedIn [x])) ∨
      (k∉keys (flows (run es)) ∧ r.totalRecv=flowSum recvLen k (accountedIn [x]) ∧
        r.totalSent=flowSum sentLen k (accountedIn [x])) := by
  have hw := (run_follows es).1
  rw [run_append] at h
  cases x with
  | rotate =>
    rw [step,(historyRotate_spec hw).2.1] at h
    obtain ⟨⟨k',r₀⟩,hm,he⟩ := List.mem_map.mp h
    obtain ⟨rfl,rfl⟩ := Prod.mk.injEq .. ▸ he
    exact .inl ⟨r₀,List.mem_of_mem_filter hm,rfl,rfl⟩
  | packet env iptr hwDir =>
    have hacc : accountedIn [.packet env iptr hwDir]=(account env iptr hwDir).toList := by
      cases ha : account env iptr hwDir <;> simp [accountedIn,Event.accounted,ha]
    rw [step,handleIpPacket] at h
    cases ha : account env iptr hwDir with
    | none =>
      rw [ha] at h hacc
      exact .inl ⟨r,h,by rw [hacc]; rfl,by rw [hacc]; rfl⟩
    | some a =>
      rw [ha] at h hacc
      rw [hacc,Option.toList_some]
      have hsum (w : Accounted→ℕ) (hk : k=a.key) : flowSum w k [a]=w a := by
        simp [flowSum,hk]
      have hm := (recordPacket_spec env a hw).2.subset h
      rcases mem_upsert.mp hm with ⟨hk,hm⟩|⟨hk,⟨r₀,hr₀,hv⟩|⟨hno,hv⟩⟩
      · have hz (w : Accounted→ℕ) : flowSum w k [a]=0 :=
          flowSum_eq_zero (by simpa using Ne.symm hk)
        exact .inl ⟨r,hm,by rw [hz,Nat.add_zero],by rw [hz,Nat.add_zero]⟩
      · obtain ⟨c1,c2⟩ := credit_totals (run es).historyPos a r₀
        dsimp only at hk hv
        exact .inl ⟨r₀,hk ▸ hr₀,by rw [hsum _ hk,hv,c1],by rw [hsum _ hk,hv,c2]⟩
      · obtain ⟨c1,c2⟩ := credit_totals (run es).historyPos a (newRecord env a.key)
        obtain ⟨-,z1,z2⟩ := newRecord_blank env a.key
        dsimp only at hk hv
        refine .inr ⟨hk ▸ hno,?_,?_⟩
        · rw [hsum _ hk,hv,c1,z1,Nat.zero_add]
        · rw [hsum _ hk,hv,c2,z2,Nat.zero_add]

/-- Every record's totals count its packets since it was created. -/
theorem exists_totalsSince (es : List Event) {k : AddrPair} {r : HistoryType}
    (h : (k,r)∈flows (run es)) : ∃ old e new,es=old++e::new ∧ TotalsSince k r old e new := by
  induction es using List.reverseRecOn generalizing r with
  | nil => simp [run,flows_init] at h
  | append_singleton es x ih =>
    rcases record_step es x h with ⟨r₀,hr₀,h1,h2⟩|⟨hno,h1,h2⟩
    · -- a record that was there before the event keeps its creation point
      obtain ⟨old,e,new,rfl,ht⟩ := ih hr₀
      have hk : k∈keys (flows (run (old++e::(new++[x])))) := by
        simpa using List.mem_map_of_mem (f:=Prod.fst) h
      exact ⟨old,e,new++[x],by simp,ht.extend x hk h1 h2⟩
    · refine ⟨es,x,[],rfl,hno,?_,h1,h2⟩
      intro mid hmid
      rw [List.prefix_nil.mp hmid]
      exact List.mem_map_of_mem (f:=Prod.fst) h

/-- In every reachable state and for every key, the history holds one record
exactly while a packet of that key lies in the last forty slots; every slot of
the record holds the bytes of the slot that many rotations ago, by side, and
its totals count all packets since the record was created. -/
theorem flow_accounting (es : List Event) (k : AddrPair) :
    (k∈keys (flows (run es)) ↔ ∃ i<40,∃ a∈slotPackets es i,a.key=k) ∧
      (keys (flows (run es))).count k≤1 ∧
      ∀ r,(k,r)∈flows (run es)→
        (∀ i<40,
          r.recv (histIdx (run es).historyPos i)=flowSum recvLen k (slotPackets es i) ∧
            r.sent (histIdx (run es).historyPos i)=flowSum sentLen k (slotPackets es i)) ∧
        ∃ old e new,es=old++e::new ∧ TotalsSince k r old e new := by
  obtain ⟨hw,ht⟩ := run_follows es
  refine ⟨⟨?_,?_⟩,List.nodup_iff_count_le_one.mp hw.nodup k,?_⟩
  · intro hk
    obtain ⟨⟨k',r⟩,hm,rfl⟩ := List.mem_map.mp hk
    obtain ⟨j,hj,-,ha,-⟩ := ht.last _ hm
    exact ⟨j,hj,ha⟩
  · rintro ⟨i,hi,a,ha,rfl⟩
    exact ht.present i hi a ha
  · intro r hr
    exact ⟨fun i hi => ht.slots _ hr i hi,exists_totalsSince es hr⟩

end IftopColor.FlowAccounting
