import IftopColor.PacketDirection

/-!
# The flow history and its rotation

Flow records live in a pool and are reached through the history table. A
packet finds or creates the record of its key and adds its length to the
current slot; a rotation moves to the next slot, walks the table with the
successor fetched before a node may be deleted, frees the records that were
last written forty slots ago and clears the new slot of the others. The
content of the history is its list of keys and records; both operations are
described by what they do to that list.
-/

namespace IftopColor.History

open ChainTable BlockPool RecordStore AddrHash Options ProcInfo PacketDirection

/-- `HISTORY_LENGTH`. -/
abbrev historyLength : ℕ := 40

/-- Index of a slot of the ring. -/
abbrev Slot := Fin historyLength

/-- The ring has a first slot. -/
scoped instance slotNeZero : NeZero historyLength := ⟨by decide⟩

/-- `history_type`. Counters are unbounded. -/
structure HistoryType where
  /-- Bytes received in each slot. -/
  recv : Slot→ℕ
  /-- Bytes sent in each slot. -/
  sent : Slot→ℕ
  /-- Bytes sent since the record was created. -/
  totalSent : ℕ
  /-- Bytes received since the record was created. -/
  totalRecv : ℕ
  /-- Slot of the last packet. -/
  lastWrite : Slot
  /-- A process was found for this flow. -/
  procResolved : Bool
  /-- Cached process id. -/
  procPid : ℤ
  /-- Cached process name without its terminator. -/
  procName : List Char

/-- Zeroed memory read as a record. -/
def HistoryType.zero : HistoryType := ⟨fun _ => 0,fun _ => 0,0,0,0,false,0,[]⟩

/-- Globals of the capture side. -/
structure Capture where
  /-- The flow table; its records are pointers into `histMem`. -/
  history : AddrTable
  /-- Pool of table nodes, shared by all address tables. -/
  nodePool : Pool
  /-- Memory of the flow records. -/
  histMem : ℕ→HistoryType
  /-- Pool of flow records. -/
  histPool : Pool
  /-- `history_totals`; only its counters are used. -/
  historyTotals : HistoryType
  /-- `history_pos`. -/
  historyPos : Slot
  /-- `history_len`. -/
  historyLen : ℕ

/-- State after `init_history`. -/
def initHistory : Capture :=
  ⟨Table.empty,Pool.empty,fun _ => HistoryType.zero,Pool.empty,HistoryType.zero,0,1⟩

/-- `HISTORY_POOL_BLOCK`. -/
def historyPoolBlock : ℕ := 256

/-- `history_create`: an item of the pool, zeroed. -/
def historyCreate (s : Capture) : ℕ×Capture :=
  let (hist,pool) := s.histPool.alloc historyPoolBlock
  (hist,{s with histPool := pool,histMem := Function.update s.histMem hist HistoryType.zero})

/-- `history_free`. -/
def historyFree (hist : ℕ) (s : Capture) : Capture :=
  {s with histPool := s.histPool.release hist}

/-- Remember the process found for a flow. -/
def HistoryType.setProcess (r : HistoryType) (pe : ProcEntry) : HistoryType :=
  {r with
    procResolved := true
    procPid := pe.pid
    procName := pe.name.take (procinfoNameMax-1)}

/-- A record as `handle_ip_packet` leaves it right after creating it: zeroed,
and attributed to a process if one is found. -/
def newRecord (env : Env) (ap : AddrPair) : HistoryType :=
  if env.options.showProcesses ∧ ¬HistoryType.zero.procResolved then
    match lookupFlow env.liveTable ap with
    | some pe => HistoryType.zero.setProcess pe
    | none => HistoryType.zero
  else HistoryType.zero

/-- Find the record of a key, or create, insert and attribute it. -/
def findOrCreate (env : Env) (ap : AddrPair) (s : Capture) : ℕ×Capture :=
  match addrHashFind s.history ap with
  | some hist => (hist,s)
  | none =>
    let (hist,s) := historyCreate s
    let (history,nodePool) := addrHashInsert s.history s.nodePool ap hist
    (hist,{s with
      history := history
      nodePool := nodePool
      histMem := Function.update s.histMem hist (newRecord env ap)})

/-- The update of a record by one packet. -/
def HistoryType.credit (pos : Slot) (a : Accounted) (r : HistoryType) : HistoryType :=
  if a.sent then
    {r with
      lastWrite := pos
      sent := Function.update r.sent pos (r.sent pos+a.len)
      totalSent := r.totalSent+a.len}
  else
    {r with
      lastWrite := pos
      recv := Function.update r.recv pos (r.recv pos+a.len)
      totalRecv := r.totalRecv+a.len}

/-- The update of the totals by one packet. -/
def HistoryType.creditTotals (pos : Slot) (a : Accounted) (r : HistoryType) : HistoryType :=
  if a.outgoing then
    {r with
      sent := Function.update r.sent pos (r.sent pos+a.len)
      totalSent := r.totalSent+a.len}
  else
    {r with
      recv := Function.update r.recv pos (r.recv pos+a.len)
      totalRecv := r.totalRecv+a.len}

/-- The part of `handle_ip_packet` that changes the history. -/
def recordPacket (env : Env) (a : Accounted) (s : Capture) : Capture :=
  let (hist,s) := findOrCreate env a.key s
  {s with
    histMem := Function.update s.histMem hist ((s.histMem hist).credit s.historyPos a)
    historyTotals := s.historyTotals.creditTotals s.historyPos a}

/-- `handle_ip_packet`. Queueing of name resolution goes to the resolver and
leaves the history alone. -/
def handleIpPacket (env : Env) (iptr : Packet) (hwDir : ℤ) (s : Capture) : Capture :=
  match account env iptr hwDir with
  | none => s
  | some a => recordPacket env a s

/-- Clear one slot of a record. -/
def HistoryType.clearSlot (pos : Slot) (r : HistoryType) : HistoryType :=
  {r with recv := Function.update r.recv pos 0,sent := Function.update r.sent pos 0}

/-- The loop of `history_rotate`. The successor is fetched before the node may
be deleted; `fuel` bounds the number of rounds. -/
def rotateLoop (pos : Slot) : ℕ→Option (Node AddrPair ℕ)→Capture→Capture
  | 0,_,s => s
  | _+1,none,s => s
  | fuel+1,some node,s =>
    let next := hashNextItem s.history (some node)
    let histData := s.histMem node.record
    if histData.lastWrite=pos then
      let (history,nodePool) := addrHashDeleteNode s.history s.nodePool node
      rotateLoop pos fuel next
        (historyFree node.record {s with history := history,nodePool := nodePool})
    else
      rotateLoop pos fuel next
        {s with histMem := Function.update s.histMem node.record (histData.clearSlot pos)}

/-- The slot after the given one, around the ring. -/
def nextSlot (pos : Slot) : Slot := ⟨(pos+1)%historyLength,Nat.mod_lt _ (by decide)⟩

/-- What `history_rotate` does after its loop. -/
def rotateEnd (pos : Slot) (s : Capture) : Capture :=
  {s with
    historyTotals := s.historyTotals.clearSlot pos
    historyLen := if s.historyLen<historyLength then s.historyLen+1 else s.historyLen}

/-- `history_rotate`. -/
def historyRotate (s : Capture) : Capture :=
  let pos := nextSlot s.historyPos
  let s := {s with historyPos := pos}
  rotateEnd pos (rotateLoop pos s.history.nodes.length (hashNextItem s.history none) s)

/-- The content of the history: keys with their records. -/
def flows (s : Capture) : List (AddrPair×HistoryType) := entries s.history s.histMem

/-- Table, node pool and record pool fit together: nothing is linked twice,
the record pool has exactly the table's records in use, and the node pool has
exactly the table's nodes and the nodes of `frame` in use. -/
structure Wf (frame : List ℕ) (s : Capture) : Prop where
  /-- Nodes, records and keys are pairwise different. -/
  linked : Linked s.history
  /-- Nodes in use. -/
  nodes : Owns poolBlockSize s.nodePool (addrs s.history++frame)
  /-- Records in use. -/
  records : Owns historyPoolBlock s.histPool (s.history.nodes.map Node.record)

/-- At the start table, pool and records fit together. -/
theorem wf_init : Wf [] initHistory := by
  have hn : initHistory.history.nodes=[] := nodes_empty
  refine ⟨linked_empty,?_,?_⟩
  · rw [addrs,hn]
    exact owns_empty
  · rw [hn]
    exact owns_empty

/-- Nothing has been seen at the start. -/
theorem flows_init : flows initHistory=[] := by simp [flows,entries,initHistory]

variable {frame : List ℕ} {s : Capture}

/-- No two flows have the same key. -/
theorem Wf.nodup (h : Wf frame s) : (keys (flows s)).Nodup := by
  rw [flows,keys_entries]
  exact h.linked.keys

/-- Finding or creating a record keeps the state well formed and the ring still;
the record belongs to the key, and a new one is added to the content. -/
theorem findOrCreate_spec (env : Env) (ap : AddrPair) (h : Wf frame s) :
    let found := findOrCreate env ap s
    Wf frame found.2 ∧ (∃ n∈found.2.history.nodes,n.record=found.1 ∧ n.key=ap) ∧
      (flows found.2).Perm (upsert ap (newRecord env ap) id (flows s)) ∧
      found.2.historyPos=s.historyPos ∧ found.2.historyLen=s.historyLen ∧
      found.2.historyTotals=s.historyTotals := by
  unfold findOrCreate addrHashFind
  cases hf : s.history.find ap with
  | some n =>
    obtain ⟨hn,hk⟩ := find_some addrCompare_iff hf
    refine ⟨h,⟨n,hn,rfl,hk⟩,.of_eq ?_,rfl,rfl,rfl⟩
    have he := entries_found addrCompare_iff h.linked hf s.histMem (newRecord env ap) id
    rwa [id,Function.update_eq_self] at he
  | none =>
    have hk := (find_none_iff addrCompare_iff).mp hf
    have hr := alloc_fresh (by decide) h.records
    obtain ⟨hn,ha⟩ := addrHashInsert_owns ap (s.histPool.alloc historyPoolBlock).1 h.nodes
    have hp := nodes_push s.history (s.nodePool.alloc poolBlockSize).1 ap
      (s.histPool.alloc historyPoolBlock).1
    refine ⟨⟨linked_push h.linked ha hr hk,hn,?_⟩,?_,?_,rfl,rfl,rfl⟩
    · exact (alloc_owns (by decide) h.records).perm (hp.map Node.record).symm
    · exact ⟨_,hp.symm.subset (List.mem_cons_self ..),rfl,rfl⟩
    · simp only [Option.map_none,historyCreate,addrHashInsert,flows,Function.update_idem]
      exact entries_inserted addrCompare_iff hf hr s.histMem _ id

/-- An accounted packet keeps the state well formed and updates the record of
its key, which it creates when there is none. -/
theorem recordPacket_spec (env : Env) (a : Accounted) (h : Wf frame s) :
    Wf frame (recordPacket env a s) ∧
      (flows (recordPacket env a s)).Perm
        (upsert a.key (newRecord env a.key) (HistoryType.credit s.historyPos a) (flows s)) := by
  obtain ⟨hw,⟨n,hn,hr,hk⟩,hp,hpos,-,-⟩ := findOrCreate_spec env a.key h
  refine ⟨⟨hw.linked,hw.nodes,hw.records⟩,?_⟩
  have he := entries_update hw.linked hn (findOrCreate env a.key s).2.histMem
    (HistoryType.credit s.historyPos a)
  rw [hr,hk] at he
  have hflows : flows (recordPacket env a s)=
      modify a.key (HistoryType.credit s.historyPos a) (flows (findOrCreate env a.key s).2) := by
    rw [←hpos] at he ⊢
    exact he
  rw [hflows,←modify_upsert]
  exact hp.map _

/-- A packet leaves the ring where it is and credits the totals in the current slot. -/
theorem recordPacket_ring (env : Env) (a : Accounted) (s : Capture) :
    (recordPacket env a s).historyPos=s.historyPos ∧
      (recordPacket env a s).historyLen=s.historyLen ∧
      (recordPacket env a s).historyTotals=s.historyTotals.creditTotals s.historyPos a := by
  unfold recordPacket findOrCreate
  cases addrHashFind s.history a.key <;> exact ⟨rfl,rfl,rfl⟩

/-- The record of a node survives the rotation to `pos`. -/
def survives (pos : Slot) (s : Capture) (n : Node AddrPair ℕ) : Bool :=
  decide ((s.histMem n.record).lastWrite≠pos)

/-- Table and pools share their items out, whatever the keys are; `rest` are records that
are in use elsewhere. -/
structure Sound (frame rest : List ℕ) (s : Capture) : Prop where
  /-- Nodes in use. -/
  nodes : Owns poolBlockSize s.nodePool (addrs s.history++frame)
  /-- Records in use. -/
  records : Owns historyPoolBlock s.histPool (s.history.nodes.map Node.record++rest)

variable {rest : List ℕ}

/-- A well-formed state is sound, with no records besides those of its flows. -/
theorem Wf.sound (h : Wf frame s) : Sound frame [] s := by
  refine ⟨h.nodes,?_⟩
  rw [List.append_nil]
  exact h.records

/-- Nodes have pairwise different addresses. -/
theorem Sound.addressed (h : Sound frame rest s) : s.history.Addressed :=
  h.nodes.nodup.of_append_left

/-- A node shares its record with no other node. -/
theorem record_ne (h : Sound frame rest s) {xs ys : List (Node AddrPair ℕ)}
    {n : Node AddrPair ℕ} (hn : s.history.nodes=xs++n::ys) :
    (∀ m∈xs,m.record≠n.record) ∧ ∀ m∈ys,m.record≠n.record := by
  have hd : (xs.map Node.record++n.record::ys.map Node.record).Nodup := by
    have hr := h.records.nodup.of_append_left
    rwa [hn,List.map_append,List.map_cons] at hr
  obtain ⟨-,hny,hdx⟩ := List.nodup_append.mp hd
  constructor
  · exact fun m hm => hdx _ (List.mem_map_of_mem hm) _ (List.mem_cons_self ..)
  · exact fun m hm he => (List.nodup_cons.mp hny).1 (he ▸ List.mem_map_of_mem hm)

/-- A node is unlinked, and its record and its node go back to their pools. -/
theorem sound_unlinked (h : Sound frame rest s) {xs ys : List (Node AddrPair ℕ)}
    {n : Node AddrPair ℕ} (hn : s.history.nodes=xs++n::ys) :
    let s' := historyFree n.record {s with
      history := (addrHashDeleteNode s.history s.nodePool n).1
      nodePool := (addrHashDeleteNode s.history s.nodePool n).2}
    Sound frame rest s' ∧ s'.history.nodes=xs++ys := by
  intro s'
  have hn' : s'.history.nodes=xs++ys := (addrHashDeleteNode_eq s.nodePool h.addressed hn).1
  refine ⟨⟨addrHashDeleteNode_owns h.addressed hn h.nodes,?_⟩,hn'⟩
  apply release_owns
  refine h.records.perm ?_
  rw [hn,hn',List.map_append,List.map_append,List.map_cons,List.append_assoc,List.append_assoc,
    List.cons_append]
  exact List.perm_middle

/-- What a loop that rotates to `pos` does to the nodes `ys` it has still to visit: expired
nodes disappear and their records are freed, the others have the slot cleared. The nodes
`xs` it has passed, the ring and the totals stay as they are. -/
structure Rotated (pos : Slot) (xs ys : List (Node AddrPair ℕ)) (s s' : Capture) : Prop where
  /-- Nodes that stay. -/
  nodes : s'.history.nodes=xs++ys.filter (survives pos s)
  /-- Records of the nodes that were passed. -/
  passed : ∀ n∈xs,s'.histMem n.record=s.histMem n.record
  /-- Records of the nodes that stay. -/
  cleared : ∀ n∈ys.filter (survives pos s),
    s'.histMem n.record=(s.histMem n.record).clearSlot pos
  /-- Records that were freed. -/
  freed : s'.histPool.free=
    ((ys.filter fun n => !survives pos s n).map Node.record).reverse++s.histPool.free
  /-- `history_totals`. -/
  totals : s'.historyTotals=s.historyTotals
  /-- `history_pos`. -/
  pos_eq : s'.historyPos=s.historyPos
  /-- `history_len`. -/
  len_eq : s'.historyLen=s.historyLen

variable {pos : Slot} {xs ys : List (Node AddrPair ℕ)} {n : Node AddrPair ℕ} {s' : Capture}

/-- The next node expired and was deleted. -/
theorem Rotated.delete (he : (s.histMem n.record).lastWrite=pos)
    (h : Rotated pos xs ys (historyFree n.record {s with
      history := (addrHashDeleteNode s.history s.nodePool n).1
      nodePool := (addrHashDeleteNode s.history s.nodePool n).2}) s') :
    Rotated pos xs (n::ys) s s' := by
  have hs : survives pos s n=false := by simpa [survives] using he
  have hstay : (n::ys).filter (survives pos s)=ys.filter (survives pos s) :=
    List.filter_cons_of_neg (by simp [hs])
  refine ⟨?_,h.passed,?_,?_,h.totals,h.pos_eq,h.len_eq⟩
  · rw [hstay]
    exact h.nodes
  · rw [hstay]
    exact h.cleared
  · rw [h.freed,List.filter_cons_of_pos (by simp [hs]),List.map_cons,List.reverse_cons,
      List.append_assoc]
    rfl

/-- The next node stayed and had the slot of its record cleared. -/
theorem Rotated.clear (hx : ∀ m∈xs,m.record≠n.record) (hy : ∀ m∈ys,m.record≠n.record)
    (he : (s.histMem n.record).lastWrite≠pos)
    (h : Rotated pos (xs++[n]) ys {s with
      histMem := Function.update s.histMem n.record ((s.histMem n.record).clearSlot pos)} s') :
    Rotated pos xs (n::ys) s s' := by
  have hmem : ∀ m : Node AddrPair ℕ,m.record≠n.record→
      Function.update s.histMem n.record ((s.histMem n.record).clearSlot pos) m.record=
        s.histMem m.record :=
    fun m hm => Function.update_of_ne hm _ _
  obtain ⟨hnodes,hpassed,hcleared,hfreed,ht,hp,hl⟩ := h
  have hs : survives pos s n=true := by simpa [survives] using he
  -- whether a later node survives does not depend on this record
  have hsurv : ∀ m∈ys,survives pos {s with
      histMem := Function.update s.histMem n.record ((s.histMem n.record).clearSlot pos)} m=
        survives pos s m := by
    intro m hm
    simp only [survives,hmem m (hy m hm)]
  rw [List.filter_congr hsurv] at hnodes hcleared
  rw [List.filter_congr fun m hm => congrArg (!·) (hsurv m hm)] at hfreed
  dsimp only at hpassed hcleared hfreed
  refine ⟨?_,fun m hm => ?_,fun m hm => ?_,?_,ht,hp,hl⟩
  · rw [hnodes,List.filter_cons_of_pos hs,List.append_assoc]
    rfl
  · rw [hpassed m (List.mem_append_left _ hm),hmem m (hx m hm)]
  · rw [List.filter_cons_of_pos hs] at hm
    rcases List.mem_cons.mp hm with rfl|hm
    · rw [hpassed m (by simp)]
      exact Function.update_self ..
    · rw [hcleared m hm,hmem m (hy m (List.mem_of_mem_filter hm))]
  · rw [hfreed,List.filter_cons_of_neg (by simp [hs])]

/-- The loop of a rotation clears or frees the records it comes to, in order. -/
theorem rotateLoop_spec (pos : Slot) (ys : List (Node AddrPair ℕ)) :
    ∀ {fuel : ℕ} (xs : List (Node AddrPair ℕ)) (s : Capture),Sound frame rest s→
      s.history.nodes=xs++ys→ys.length≤fuel→
      let s' := rotateLoop pos fuel ys.head? s
      Sound frame rest s' ∧ Rotated pos xs ys s s' := by
  induction ys with
  | nil =>
    intro fuel xs s h hn _
    have hstop : rotateLoop pos fuel none s=s := by cases fuel <;> rfl
    rw [List.head?_nil,hstop]
    exact ⟨h,hn,fun _ _ => rfl,by simp,rfl,rfl,rfl,rfl⟩
  | cons n ys ih =>
    intro fuel xs s h hn hfuel
    obtain ⟨fuel,rfl⟩ : ∃ k,fuel=k+1 := ⟨fuel-1,by rw [List.length_cons] at hfuel; omega⟩
    have hfuel : ys.length≤fuel := Nat.le_of_succ_le_succ hfuel
    have hnext : hashNextItem s.history (some n)=ys.head? := next_eq h.addressed hn
    by_cases he : (s.histMem n.record).lastWrite=pos
    · obtain ⟨hw,hn1⟩ := sound_unlinked h hn
      obtain ⟨hw',hr⟩ := ih xs _ hw hn1 hfuel
      simp only [List.head?_cons,rotateLoop,hnext,if_pos he]
      exact ⟨hw',hr.delete he⟩
    · obtain ⟨hnx,hny⟩ := record_ne h hn
      have hn1 : s.history.nodes=(xs++[n])++ys := by
        rw [hn]
        simp
      obtain ⟨hw',hr⟩ := ih (xs++[n]) {s with
        histMem := Function.update s.histMem n.record ((s.histMem n.record).clearSlot pos)}
        ⟨h.nodes,h.records⟩ hn1 hfuel
      simp only [List.head?_cons,rotateLoop,hnext,if_neg he]
      exact ⟨hw',hr.clear hnx hny he⟩

/-- The entries that survive a rotation to `pos`, with the slot cleared. -/
def expire (pos : Slot) (es : List (AddrPair×HistoryType)) : List (AddrPair×HistoryType) :=
  (es.filter fun e => decide (e.2.lastWrite≠pos)).map fun e => (e.1,e.2.clearSlot pos)

/-- What a rotation does to the nodes and their records. -/
theorem historyRotate_nodes (h : Wf frame s) :
    let pos := nextSlot s.historyPos
    Wf frame (historyRotate s) ∧
      (historyRotate s).history.nodes=s.history.nodes.filter (survives pos s) ∧
      (∀ n∈s.history.nodes.filter (survives pos s),
        (historyRotate s).histMem n.record=(s.histMem n.record).clearSlot pos) ∧
      (historyRotate s).historyTotals=s.historyTotals.clearSlot pos ∧
      (historyRotate s).historyPos=pos ∧
      (historyRotate s).historyLen=
        if s.historyLen<historyLength then s.historyLen+1 else s.historyLen := by
  intro pos
  have hw : Sound frame [] {s with historyPos := pos} := ⟨h.sound.nodes,h.sound.records⟩
  have hloop := rotateLoop_spec pos s.history.nodes [] _ hw (List.nil_append _).symm (Nat.le_refl _)
  have he : historyRotate s=rotateEnd pos
      (rotateLoop pos s.history.nodes.length s.history.nodes.head? {s with historyPos := pos}) := by
    rw [←next_none]
    rfl
  rw [he]
  generalize rotateLoop _ _ _ _=s' at hloop
  obtain ⟨hw',hn,-,hy,-,ht,hp,hl⟩ := hloop
  have hrecords := hw'.records
  rw [List.append_nil] at hrecords
  have hlinked : Linked s'.history := by
    refine h.linked.of_sublist ?_
    rw [hn]
    exact List.filter_sublist
  refine ⟨⟨hlinked,hw'.nodes,hrecords⟩,hn,hy,?_,hp,?_⟩
  · rw [rotateEnd,ht]
  · rw [rotateEnd,hl]

/-- A rotation keeps the state well formed, drops the flows last written in
the slot it enters and clears that slot of all other flows. -/
theorem historyRotate_spec (h : Wf frame s) :
    Wf frame (historyRotate s) ∧
      flows (historyRotate s)=expire (nextSlot s.historyPos) (flows s) ∧
      (historyRotate s).historyTotals=s.historyTotals.clearSlot (nextSlot s.historyPos) ∧
      (historyRotate s).historyPos=nextSlot s.historyPos ∧
      (historyRotate s).historyLen=
        if s.historyLen<historyLength then s.historyLen+1 else s.historyLen := by
  obtain ⟨hw,hn,hy,hrest⟩ := historyRotate_nodes h
  refine ⟨hw,?_,hrest⟩
  simp only [flows,entries,expire,hn,List.filter_map,List.map_map]
  apply List.map_congr_left
  intro n hm
  simp only [Function.comp]
  rw [hy n hm]

end IftopColor.History
