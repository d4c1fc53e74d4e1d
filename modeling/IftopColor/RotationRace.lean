import IftopColor.FlowAccounting
import IftopColor.GuardedRun

/-!
# A rotation in the middle of a packet

The capture thread handles a packet in three steps: it finds or creates the
record, adds the length to the record's current slot, and adds it to the
totals' current slot. The display thread rotates the history under a mutex that
the capture thread does not take, so a rotation can come between the steps.

Two kinds of such rotations do harm: one that expires the record just found,
and one between the two additions of a packet with bytes. As long as neither
happens, the found record is in the history and the flows add up to the totals;
the first one that happens always leads to a state where this is not so.
-/

namespace IftopColor.RotationRace

open ChainTable RecordStore AddrHash PacketDirection History FlowAccounting GuardedRun

/-- Where the capture thread is in `handle_ip_packet`. -/
inductive Phase where
  /-- No packet in progress. -/
  | idle
  /-- Has the record of the packet, before its update. -/
  | found (a : Accounted) (hist : ℕ)
  /-- Has updated the record, before the totals. -/
  | updated (a : Accounted)

/-- The history with the thread that writes to it. -/
structure Threads where
  /-- Globals of the capture side. -/
  capture : Capture
  /-- The packet in progress. -/
  phase : Phase

/-- State after `init_history`. -/
def initThreads : Threads := ⟨initHistory,.idle⟩

/-- What the threads can do next. -/
inductive Action where
  | find (env : Env) (iptr : Packet) (hwDir : ℤ)
  | update
  | total
  | rotate

/-- The update of the record that was found, at the current slot. -/
def updateRecord (a : Accounted) (hist : ℕ) (s : Capture) : Capture :=
  {s with histMem := Function.update s.histMem hist ((s.histMem hist).credit s.historyPos a)}

/-- The update of the totals, at the current slot. -/
def updateTotals (a : Accounted) (s : Capture) : Capture :=
  {s with historyTotals := s.historyTotals.creditTotals s.historyPos a}

/-- The effect of an action, or `none` when it is not enabled. -/
def next (s : Threads) : Action→Option Threads
  | .find env iptr hwDir =>
    match s.phase with
    | .idle =>
      match account env iptr hwDir with
      | none => some s
      | some a =>
        let (hist,capture) := findOrCreate env a.key s.capture
        some ⟨capture,.found a hist⟩
    | _ => none
  | .update =>
    match s.phase with
    | .found a hist => some ⟨updateRecord a hist s.capture,.updated a⟩
    | _ => none
  | .total =>
    match s.phase with
    | .updated a => some ⟨updateTotals a s.capture,.idle⟩
    | _ => none
  | .rotate => some {s with capture := historyRotate s.capture}

/-- Without a rotation in between, the three steps are `handle_ip_packet`. -/
theorem steps_handleIpPacket (env : Env) (iptr : Packet) (hwDir : ℤ) (s : Capture) {a : Accounted}
    (ha : account env iptr hwDir=some a) :
    [Action.find env iptr hwDir,.update,.total].foldlM next ⟨s,.idle⟩=
      some ⟨handleIpPacket env iptr hwDir s,.idle⟩ := by
  simp only [List.foldlM_cons,List.foldlM_nil,next,ha,handleIpPacket,Option.bind_eq_bind,
    Option.bind_some]
  rfl

/-- Bytes of all flows in a slot. -/
def flowBytes (s : Capture) (i : Slot) : ℕ := ((flows s).map fun e => e.2.recv i+e.2.sent i).sum

/-- Bytes of the totals in a slot. -/
def totalBytes (s : Capture) (i : Slot) : ℕ := s.historyTotals.recv i+s.historyTotals.sent i

/-- The record to be updated is in the history, and with no packet in progress
the flows add up to the totals. -/
def Sound (s : Threads) : Prop :=
  (∀ a hist,s.phase=.found a hist→hist∈s.capture.history.nodes.map Node.record) ∧
    (s.phase=.idle→∀ i,flowBytes s.capture i=totalBytes s.capture i)

/-- A rotation that expires the record just found, or that comes between the
two additions of a packet with bytes. -/
def Harmful (s : Threads) : Action→Prop
  | .rotate =>
    match s.phase with
    | .idle => False
    | .found _ hist => (s.capture.histMem hist).lastWrite=nextSlot s.capture.historyPos
    | .updated a => 0<a.len
  | _ => False

/-- A new record without bytes changes no sum. -/
theorem sum_upsert_blank {k : AddrPair} {z : HistoryType} (hz : Blank z)
    (es : List (AddrPair×HistoryType)) (i : Slot) :
    ((upsert k z id es).map fun e => e.2.recv i+e.2.sent i).sum=
      (es.map fun e => e.2.recv i+e.2.sent i).sum := by
  unfold upsert
  split
  · rw [RecordStore.modify,List.map_map]
    congr 1
    apply List.map_congr_left
    intro e _
    dsimp only [Function.comp]
    split <;> rfl
  · rw [List.map_cons,List.sum_cons,id,(hz i).1,(hz i).2,Nat.zero_add]

/-- Crediting a packet adds its bytes in the given slot only. -/
theorem credit_bytes (pos : Slot) (a : Accounted) (r : HistoryType) (i : Slot) :
    (r.credit pos a).recv i+(r.credit pos a).sent i=
      r.recv i+r.sent i+if i=pos then a.len else 0 := by
  unfold HistoryType.credit
  by_cases hi : i=pos
  · subst hi
    split <;> simp <;> omega
  · split <;> simp [hi]

/-- A rotation empties one slot; the flows it drops had no bytes elsewhere. -/
theorem sum_expire {pos i : Slot} {es : List (AddrPair×HistoryType)}
    (h : ∀ e∈es,e.2.lastWrite=pos→i≠pos→e.2.recv i+e.2.sent i=0) :
    ((expire pos es).map fun e => e.2.recv i+e.2.sent i).sum=
      if i=pos then 0 else (es.map fun e => e.2.recv i+e.2.sent i).sum := by
  induction es with
  | nil => simp [expire]
  | cons e es ih =>
    have hrest := ih fun e' he' => h e' (List.mem_cons_of_mem _ he')
    have hcell : ∀ r : HistoryType,(r.clearSlot pos).recv i+(r.clearSlot pos).sent i=
        if i=pos then 0 else r.recv i+r.sent i := by
      intro r
      by_cases hi : i=pos <;> simp [HistoryType.clearSlot,hi]
    by_cases hw : e.2.lastWrite=pos
    · have hdrop : expire pos (e::es)=expire pos es := by simp [expire,hw]
      rw [hdrop,hrest]
      by_cases hi : i=pos
      · simp [hi]
      · have hz := h e (List.mem_cons_self ..) hw hi
        simp [hi,hz]
    · have hkeep : expire pos (e::es)=(e.1,e.2.clearSlot pos)::expire pos es := by
        simp [expire,hw]
      rw [hkeep,List.map_cons,List.sum_cons,hrest,hcell]
      by_cases hi : i=pos <;> simp [hi]

/-- No record has bytes in a slot that is newer than its last write. -/
def Settled (s : Capture) : Prop :=
  ∀ e∈flows s,∃ j<40,e.2.lastWrite=histIdx s.historyPos j ∧
    ∀ i<j,e.2.recv (histIdx s.historyPos i)+e.2.sent (histIdx s.historyPos i)=0

/-- Bytes that the record has and the totals do not have yet. -/
def pendingBytes (s : Threads) (i : Slot) : ℕ :=
  match s.phase with
  | .updated a => if i=s.capture.historyPos then a.len else 0
  | _ => 0

/-- What holds as long as no rotation did harm. -/
structure Inv (s : Threads) : Prop where
  /-- Table and pools fit together. -/
  wf : Wf [] s.capture
  /-- Records that expire have no other bytes. -/
  settled : Settled s.capture
  /-- The found record is in the history. -/
  linked : ∀ a hist,s.phase=.found a hist→hist∈s.capture.history.nodes.map Node.record
  /-- The flows are ahead of the totals by the packet in progress. -/
  bytes : ∀ i,flowBytes s.capture i=totalBytes s.capture i+pendingBytes s i

variable {s s' : Threads} {c c' : Capture} {a : Action}

/-- Nothing is in progress at the start. -/
theorem inv_init : Inv initThreads := by
  have hf : flows initThreads.capture=[] := flows_init
  refine ⟨wf_init,?_,by simp [initThreads],?_⟩
  · intro e he
    rw [hf] at he
    simp at he
  · intro i
    rw [flowBytes,hf]
    rfl

/-- Finding or creating a record moves no bytes. -/
theorem findOrCreate_bytes (env : Env) (ap : AddrPair) (hw : Wf [] c) (hs : Settled c) :
    Settled (findOrCreate env ap c).2 ∧
      ∀ i,flowBytes (findOrCreate env ap c).2 i=flowBytes c i := by
  obtain ⟨-,-,hp,hpos,-,-⟩ := findOrCreate_spec env ap hw
  have hz := (newRecord_blank env ap).1
  constructor
  · intro e he
    rw [hpos]
    rcases mem_upsert.mp (hp.subset he) with ⟨-,he⟩|⟨hk,⟨r,hr,hv⟩|⟨-,hv⟩⟩
    · exact hs e he
    · rw [hv]
      exact hs (ap,r) hr
    · obtain ⟨j,hj,hw⟩ := exists_histIdx c.historyPos e.2.lastWrite
      refine ⟨j,hj,hw,fun i _ => ?_⟩
      rw [hv,id,(hz _).1,(hz _).2]
  · intro i
    rw [flowBytes,(hp.map _).sum_eq,sum_upsert_blank hz]
    rfl

/-- The update of a linked record adds the packet to the current slot. -/
theorem updateRecord_bytes (acc : Accounted) {hist : ℕ} (hw : Wf [] c) (hs : Settled c)
    (hl : hist∈c.history.nodes.map Node.record) :
    Settled (updateRecord acc hist c) ∧
      ∀ i,flowBytes (updateRecord acc hist c) i=
        flowBytes c i+if i=c.historyPos then acc.len else 0 := by
  obtain ⟨n,hn,rfl⟩ := List.mem_map.mp hl
  have hflows : flows (updateRecord acc n.record c)=
      RecordStore.modify n.key (HistoryType.credit c.historyPos acc) (flows c) :=
    entries_update hw.linked hn c.histMem (HistoryType.credit c.historyPos acc)
  constructor
  · intro e he
    rw [hflows] at he
    rcases mem_modify.mp he with ⟨-,he⟩|⟨-,r,-,hv⟩
    · exact hs e he
    · refine ⟨0,by decide,?_,by simp⟩
      rw [hv,histIdx_zero]
      change (r.credit c.historyPos acc).lastWrite=c.historyPos
      unfold HistoryType.credit
      split <;> rfl
  · intro i
    have hk : n.key∈keys (flows c) := by
      rw [flows,keys_entries]
      exact List.mem_map_of_mem hn
    rw [flowBytes,hflows]
    exact sum_modify (fun r => r.recv i+r.sent i) hw.nodup hk fun r =>
      credit_bytes c.historyPos acc r i

/-- The update of the totals adds the packet to the current slot. -/
theorem updateTotals_bytes (acc : Accounted) (c : Capture) (i : Slot) :
    totalBytes (updateTotals acc c) i=totalBytes c i+if i=c.historyPos then acc.len else 0 := by
  unfold totalBytes updateTotals HistoryType.creditTotals
  by_cases hi : i=c.historyPos
  · subst hi
    dsimp only
    split <;> simp <;> omega
  · dsimp only
    split <;> simp [hi]

/-- After a rotation, too, no record has bytes newer than its last write. -/
theorem settled_rotate (hw : Wf [] c) (hs : Settled c) : Settled (historyRotate c) := by
  obtain ⟨-,hf,-,hpos,-⟩ := historyRotate_spec hw
  intro e he
  rw [hf] at he
  obtain ⟨⟨k,r⟩,hm,rfl⟩ := List.mem_map.mp he
  obtain ⟨hm,hlw⟩ := List.mem_filter.mp hm
  obtain ⟨j,hj,hl,hnew⟩ := hs _ hm
  have hj' : j+1<40 := by
    by_contra hge
    have hj39 : j=39 := by omega
    rw [hj39,histIdx_oldest] at hl
    exact of_decide_eq_true hlw hl
  refine ⟨j+1,hj',?_,?_⟩
  · rw [hpos,histIdx_nextSlot _ hj]
    exact hl
  · intro i hi
    obtain ⟨c1,c2⟩ := clearSlot_slots c.historyPos r (by omega : i<40)
    rw [hpos]
    dsimp only
    rw [c1,c2]
    by_cases h0 : i=0
    · simp [h0]
    · simpa [h0] using hnew (i-1) (by omega)

/-- A rotation empties the slot it enters and moves no other bytes. -/
theorem historyRotate_bytes (hw : Wf [] c) (hs : Settled c) (i : Slot) :
    flowBytes (historyRotate c) i=(if i=nextSlot c.historyPos then 0 else flowBytes c i) ∧
      totalBytes (historyRotate c) i=if i=nextSlot c.historyPos then 0 else totalBytes c i := by
  obtain ⟨-,hf,ht,-,-⟩ := historyRotate_spec hw
  constructor
  · rw [flowBytes,hf]
    refine sum_expire fun e he hl hi => ?_
    -- an expired record is of age 39, so all its other slots are newer
    obtain ⟨j,hj,hlast,hnew⟩ := hs e he
    obtain ⟨k,hk,hik⟩ := exists_histIdx c.historyPos i
    have hj39 : j=39 := by
      rw [hlast,←histIdx_oldest] at hl
      exact (histIdx_inj _ hj (by decide)).mp hl
    have hk39 : k≠39 := by
      rintro rfl
      exact hi (hik.trans (histIdx_oldest _))
    rw [hik]
    exact hnew k (by omega)
  · rw [totalBytes,ht]
    by_cases hi : i=nextSlot c.historyPos <;> simp [HistoryType.clearSlot,totalBytes,hi]

/-- A record that is not expired stays linked through a rotation. -/
theorem mem_records_rotate {hist : ℕ} (hw : Wf [] c) :
    hist∈(historyRotate c).history.nodes.map Node.record ↔
      hist∈c.history.nodes.map Node.record ∧
        (c.histMem hist).lastWrite≠nextSlot c.historyPos := by
  rw [(historyRotate_nodes hw).2.1]
  simp only [List.mem_map,List.mem_filter,survives,decide_eq_true_eq]
  constructor
  · rintro ⟨n,⟨hn,hl⟩,rfl⟩
    exact ⟨⟨n,hn,rfl⟩,hl⟩
  · rintro ⟨⟨n,hn,rfl⟩,hl⟩
    exact ⟨n,⟨hn,hl⟩,rfl⟩

/-- A packet finds its record, which is in the history then. -/
theorem inv_find {env : Env} {iptr : Packet} {hwDir : ℤ} (h : Inv s)
    (hn : next s (.find env iptr hwDir)=some s') : Inv s' := by
  obtain ⟨c,phase⟩ := s
  obtain ⟨hw,hs,hl,hb⟩ := h
  cases phase with
  | idle =>
    simp only [next] at hn
    cases ha : account env iptr hwDir with
    | none =>
      rw [ha] at hn
      obtain rfl := Option.some.inj hn
      exact ⟨hw,hs,hl,hb⟩
    | some acc =>
      rw [ha] at hn
      obtain rfl := Option.some.inj hn
      obtain ⟨hw',⟨n,hmem,hrec,-⟩,-,-,-,ht⟩ := findOrCreate_spec env acc.key hw
      obtain ⟨hs',hb'⟩ := findOrCreate_bytes env acc.key hw hs
      refine ⟨hw',hs',?_,?_⟩
      · rintro a' hist ⟨⟩
        exact hrec ▸ List.mem_map_of_mem hmem
      · intro i
        have hi := hb i
        dsimp only [pendingBytes] at hi ⊢
        rw [hb',hi,totalBytes,totalBytes,ht]
  | found acc hist => simp [next] at hn
  | updated acc => simp [next] at hn

/-- A rotation that is not harmful keeps the invariant. -/
theorem inv_rotate (h : Inv s) (hg : ¬Harmful s .rotate) (hn : next s .rotate=some s') :
    Inv s' := by
  obtain ⟨c,phase⟩ := s
  obtain ⟨hw,hs,hl,hb⟩ := h
  obtain rfl := Option.some.inj hn
  refine ⟨(historyRotate_spec hw).1,settled_rotate hw hs,?_,?_⟩
  · rintro acc hist hp
    dsimp only at hp
    subst hp
    exact (mem_records_rotate hw).mpr ⟨hl acc hist rfl,hg⟩
  · intro i
    obtain ⟨h1,h2⟩ := historyRotate_bytes hw hs i
    -- only a packet without bytes can be between its two additions here
    have hz (i : Slot) (c : Capture) : pendingBytes ⟨c,phase⟩ i=0 := by
      cases phase with
      | updated acc =>
        have hlen : acc.len=0 := Nat.eq_zero_of_not_pos hg
        simp [pendingBytes,hlen]
      | _ => rfl
    have hi := hb i
    rw [hz] at hi ⊢
    rw [h1,h2,hi]
    simp

/-- Every action keeps the invariant, unless it is a harmful rotation. -/
theorem inv_step (h : Inv s) (hg : ¬Harmful s a) (hn : next s a=some s') : Inv s' := by
  cases a with
  | find env iptr hwDir => exact inv_find h hn
  | update =>
    obtain ⟨c,phase⟩ := s
    obtain ⟨hw,hs,hl,hb⟩ := h
    cases phase with
    | found acc hist =>
      obtain rfl := Option.some.inj hn
      obtain ⟨hs',hb'⟩ := updateRecord_bytes acc hw hs (hl acc hist rfl)
      refine ⟨⟨hw.linked,hw.nodes,hw.records⟩,hs',by simp,?_⟩
      intro i
      rw [hb',hb]
      rfl
    | idle => simp [next] at hn
    | updated acc => simp [next] at hn
  | total =>
    obtain ⟨c,phase⟩ := s
    obtain ⟨hw,hs,hl,hb⟩ := h
    cases phase with
    | updated acc =>
      obtain rfl := Option.some.inj hn
      refine ⟨⟨hw.linked,hw.nodes,hw.records⟩,hs,by simp,?_⟩
      intro i
      rw [updateTotals_bytes]
      exact hb i
    | idle => simp [next] at hn
    | found acc hist => simp [next] at hn
  | rotate => exact inv_rotate h hg hn

/-- What the invariant says about the states a run may stop in. -/
theorem Inv.sound (h : Inv s) : Sound s := by
  refine ⟨h.linked,fun hp i => ?_⟩
  rw [h.bytes,pendingBytes,hp]
  rfl

/-- Totals updated after a rotation have bytes in a slot where no flow has any. -/
theorem unsound_updateTotals {acc : Accounted} (hw : Wf [] c) (hs : Settled c) (hlen : 0<acc.len) :
    ¬Sound ⟨updateTotals acc (historyRotate c),.idle⟩ := by
  intro hsound
  have hpos := (historyRotate_spec hw).2.2.2.1
  have hb := hsound.2 rfl (nextSlot c.historyPos)
  obtain ⟨h1,h2⟩ := historyRotate_bytes hw hs (nextSlot c.historyPos)
  have hf : flowBytes (updateTotals acc (historyRotate c)) (nextSlot c.historyPos)=0 := by
    rw [if_pos rfl] at h1
    exact h1
  dsimp only at hb
  rw [hf,updateTotals_bytes,h2,hpos,if_pos rfl,if_pos rfl] at hb
  omega

/-- In every state of a run without harmful rotations the found record is in the
history and the flows add up to the totals; the first harmful rotation leads to a
state where this fails. -/
theorem sound_iff_harmless (s : Threads) :
    (Run next (fun s a => ¬Harmful s a) initThreads s→Sound s) ∧
      ∀ a s',Run next (fun s a => ¬Harmful s a) initThreads s→Harmful s a→next s a=some s'→
        ∃ s'',Reaches next s' s'' ∧ ¬Sound s'' := by
  have hinv (hs : Run next (fun s a => ¬Harmful s a) initThreads s) : Inv s :=
    hs.invariant inv_init fun _ _ _ h hg hn => inv_step h hg hn
  refine ⟨fun hs => (hinv hs).sound,?_⟩
  intro a s' hs ha hn
  obtain ⟨hw,hset,-,-⟩ := hinv hs
  obtain ⟨c,phase⟩ := s
  cases a with
  | rotate =>
    obtain rfl := Option.some.inj hn
    cases phase with
    | idle => exact ha.elim
    | found acc hist =>
      refine ⟨_,.init,fun hsound => ?_⟩
      exact ((mem_records_rotate hw).mp (hsound.1 acc hist rfl)).2 ha
    | updated acc =>
      exact ⟨⟨updateTotals acc (historyRotate c),.idle⟩,Reaches.single (a:=.total) rfl,
        unsound_updateTotals hw hset ha⟩
  | _ => exact ha.elim

/-- A UDP packet of 20 bytes with a rotation between its two additions. -/
def racingRun : List Action :=
  [.find bareEnv (ip4Packet ipprotoUdp ![10,0,0,1] ![10,0,0,9]) 1,.update,.rotate,.total]

/-- After the race the bytes of the packet are in one slot of the flow and in another of the
totals. -/
theorem racing_unsound : ∃ s,racingRun.foldlM next initThreads=some s ∧ ¬Sound s := by
  let iptr := ip4Packet ipprotoUdp ![10,0,0,1] ![10,0,0,9]
  let acc := accountAs iptr (assignAddrPair iptr false) true
  have ha : account bareEnv iptr 1=some acc := by
    have hd : decideDirection bareEnv iptr 1=.assign false true := by decide
    have hl : dropLinkLocal bareEnv iptr=false := by decide
    simp [account,hd,hl,acc]
  let found := findOrCreate bareEnv acc.key initHistory
  have hfind : next initThreads (.find bareEnv iptr 1)=some ⟨found.2,.found acc found.1⟩ := by
    simp only [next,initThreads,ha]
    rfl
  have hinv : Inv ⟨updateRecord acc found.1 found.2,.updated acc⟩ :=
    inv_step (a:=.update) (inv_step inv_init (by simp [Harmful]) hfind) (by simp [Harmful]) rfl
  refine ⟨⟨updateTotals acc (historyRotate (updateRecord acc found.1 found.2)),.idle⟩,?_,?_⟩
  · rw [racingRun,List.foldlM_cons,hfind]
    rfl
  · exact unsound_updateTotals hinv.wf hinv.settled (by decide)

end IftopColor.RotationRace
