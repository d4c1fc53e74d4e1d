import IftopColor.PoolAliasing

/-!
# Deleting during iteration

The loop of `history_rotate` on pointers: it fetches the successor of a node, and then
may unlink the node, put it on the free list through the link that the loop has just
followed, and free its record. It runs in step with the loop on lists, whatever the
shape of the chains; so it visits every node once, and the nodes that stay are those
of the list in their old order.
-/

namespace IftopColor.ExactRotation

open ChainTable BlockPool AddrHash History LinkedCells ChainHeap PoolHeap AddrHeap PoolAliasing

variable {n : ℕ}

/-- Memory and the ring of slots. -/
structure Rotating (n : ℕ) where
  /-- Tables and pools. -/
  heap : Heap n
  /-- `history_totals`. -/
  historyTotals : HistoryType
  /-- `history_pos`. -/
  historyPos : Slot
  /-- `history_len`. -/
  historyLen : ℕ

/-- The loop of `history_rotate` on table `i`, with the nodes it visits. -/
def rotateLoop (i : Fin n) (pos : Slot) : ℕ→Option ℕ→Heap n→List ℕ×Heap n
  | 0,_,h => ([],h)
  | _+1,none,h => ([],h)
  | fuel+1,some node,h =>
    let next := h.hashNextItem i (some node)
    let hist := (h.nodes.mem node).record
    let histData := h.records.mem hist
    let h' :=
      if histData.lastWrite=pos then (h.addrHashDeleteNode i node).historyFree hist
      else h.writeRecord hist (histData.clearSlot pos)
    let (visited,h'') := rotateLoop i pos fuel next h'
    (node::visited,h'')

/-- `history_rotate`, with the nodes it visits. -/
def historyRotate (i : Fin n) (s : Rotating n) : List ℕ×Rotating n :=
  let pos := nextSlot s.historyPos
  let (visited,heap) := rotateLoop i pos s.heap.fuel (s.heap.hashNextItem i none) s.heap
  (visited,{
    heap := heap
    historyTotals := s.historyTotals.clearSlot pos
    historyPos := pos
    historyLen := if s.historyLen<historyLength then s.historyLen+1 else s.historyLen})

/-- Table `i` and the pools are those of a state of lists; `tables` are the other tables
and `rest` the records that other users have. -/
structure InStep (i : Fin n) (tables : Fin n→AddrTable) (rest : List ℕ) (h : Heap n) (s : Capture) :
    Prop where
  /-- Memory. -/
  refines : Refines h ⟨Function.update tables i s.history,s.nodePool,s.histPool,
    s.history.nodes.map Node.record++rest⟩
  /-- Records of the table. -/
  records : ∀ m∈s.history.nodes,h.records.mem m.record=s.histMem m.record

variable {i : Fin n} {tables : Fin n→AddrTable} {rest : List ℕ} {h : Heap n} {s : Capture}

/-- The heap holds the chains of the table that is rotated. -/
theorem InStep.holds (w : InStep i tables rest h s) : Holds h.nodes.mem (h.tables i) s.history := by
  have hh := w.refines.holds i
  simpa only [Function.update_self] using hh

/-- The nodes and records of the table are its own, so the rotation may free them. -/
theorem InStep.sound (w : InStep i tables rest h s) : Sound (otherAddrs i tables) rest s := by
  refine ⟨?_,w.refines.ownsRecords⟩
  have ho := w.refines.owns_table i
  simpa only [Function.update_self,otherAddrs_update] using ho

/-- A node is deleted and its record is freed. -/
theorem inStep_delete (w : InStep i tables rest h s) {xs ys : List (Node AddrPair ℕ)}
    {m : Node AddrPair ℕ} (hs : s.history.nodes=xs++m::ys) :
    InStep i tables rest ((h.addrHashDeleteNode i m.addr).historyFree m.record)
      (History.historyFree m.record {s with
        history := (addrHashDeleteNode s.history s.nodePool m).1
        nodePool := (addrHashDeleteNode s.history s.nodePool m).2}) := by
  have hm : m∈s.history.nodes := by
    rw [hs]
    simp
  have hm' : m∈(Function.update tables i s.history i).nodes := by
    rw [Function.update_self]
    exact hm
  have hdeleted := addrHashDeleteNode_linked w.refines hm'
  simp only [Lists.setTable,Function.update_self,Function.update_idem] at hdeleted
  have hin : m.record∈s.history.nodes.map Node.record++rest :=
    List.mem_append_left _ (List.mem_map_of_mem hm)
  obtain ⟨hfreed,hout⟩ := historyFree_refines hdeleted hin
  obtain ⟨-,hs'⟩ := sound_unlinked w.sound hs
  refine ⟨hfreed.reorder ?_,fun x hx => ?_⟩
  · -- the records that are left
    rw [hs',hs]
    simp only [List.map_append,List.map_cons,List.append_assoc,List.cons_append]
    have hp : (xs.map Node.record++m.record::(ys.map Node.record++rest)).Perm
        (m.record::(xs.map Node.record++(ys.map Node.record++rest))) := List.perm_middle
    have he := hp.erase m.record
    rwa [List.erase_cons_head] at he
  · rw [hs'] at hx
    have hne : x.record≠m.record := by
      obtain ⟨hxs,hys⟩ := record_ne w.sound hs
      exact (List.mem_append.mp hx).elim (hxs x) (hys x)
    rw [hout _ hne,addrHashDeleteNode_records]
    refine w.records x ?_
    rw [hs]
    exact ((List.sublist_cons_self m ys).append_left xs).subset hx

/-- Clearing the slot of a record on the heap clears it in the list. -/
theorem inStep_clear (w : InStep i tables rest h s) {m : Node AddrPair ℕ} (hm : m∈s.history.nodes)
    (pos : Slot) :
    InStep i tables rest (h.writeRecord m.record ((s.histMem m.record).clearSlot pos))
      {s with
        histMem := Function.update s.histMem m.record ((s.histMem m.record).clearSlot pos)} := by
  have hin : m.record∈s.history.nodes.map Node.record++rest :=
    List.mem_append_left _ (List.mem_map_of_mem hm)
  refine ⟨writeRecord_refines w.refines hin _,fun x hx => ?_⟩
  simp only [Heap.writeRecord]
  by_cases he : x.record=m.record
  · rw [he,Function.update_self,Function.update_self]
  · rw [Function.update_of_ne he,Function.update_of_ne he]
    exact w.records x hx

/-- The loop on pointers visits the nodes `ys` that are left, and runs in step with the loop
on lists. -/
theorem rotateLoop_inStep (pos : Slot) (ys : List (Node AddrPair ℕ)) :
    ∀ {fuel : ℕ} (xs : List (Node AddrPair ℕ)) (h : Heap n) (s : Capture),InStep i tables rest h s→
      s.history.nodes=xs++ys→ys.length≤fuel→
      let result := rotateLoop i pos fuel (ys.head?.map Node.addr) h
      result.1=ys.map Node.addr ∧
        InStep i tables rest result.2 (History.rotateLoop pos fuel ys.head? s) := by
  induction ys with
  | nil =>
    intro fuel xs h s w _ _
    have hstop : rotateLoop i pos fuel none h=([],h) := by cases fuel <;> rfl
    have hstop' : History.rotateLoop pos fuel none s=s := by cases fuel <;> rfl
    rw [List.head?_nil,Option.map_none,hstop,hstop']
    exact ⟨rfl,w⟩
  | cons m ys ih =>
    intro fuel xs h s w hs hfuel
    obtain ⟨fuel,rfl⟩ : ∃ k,fuel=k+1 := ⟨fuel-1,by rw [List.length_cons] at hfuel; omega⟩
    have hfuel : ys.length≤fuel := Nat.le_of_succ_le_succ hfuel
    have hm : m∈s.history.nodes := by
      rw [hs]
      simp
    have hnext' : AddrHash.hashNextItem s.history (some m)=ys.head? := next_eq w.sound.addressed hs
    have hnext : h.hashNextItem i (some m.addr)=ys.head?.map Node.addr := by
      rw [←hnext']
      exact nextCell_eq w.holds hm
    have hrecord : (h.nodes.mem m.addr).record=m.record :=
      congrArg Node.record (w.holds.nodes m hm)
    simp only [List.head?_cons,Option.map_some,rotateLoop,History.rotateLoop,hnext,hnext',hrecord,
      w.records m hm]
    split
    · -- the node is deleted, and its link now belongs to the free list
      obtain ⟨-,hs'⟩ := sound_unlinked w.sound hs
      obtain ⟨hv,hw⟩ := ih xs _ _ (inStep_delete w hs) hs' hfuel
      exact ⟨congrArg (m.addr::·) hv,hw⟩
    · have hs' : s.history.nodes=(xs++[m])++ys := by
        rw [hs]
        simp
      obtain ⟨hv,hw⟩ := ih (xs++[m]) _ _ (inStep_clear w hm pos) hs' hfuel
      exact ⟨congrArg (m.addr::·) hv,hw⟩

/-- The nodes of a table, read through its pointers. -/
def tableNodes (h : Heap n) (i : Fin n) : List (Node AddrPair ℕ) :=
  (tableCells h i).map (nodeAt h.nodes.mem)

/-- The nodes that an iteration meets are those of the table. -/
theorem tableNodes_eq {a : Lists n} (r : Refines h a) (i : Fin n) :
    tableNodes h i=(a.tables i).nodes := by
  rw [tableNodes,tableCells_eq r,List.map_map]
  exact (List.map_congr_left (r.holds i).nodes).trans (List.map_id' _)

/-- The state of lists that a state of pointers starts from. -/
def captureOf (i : Fin n) (s : Rotating n) (a : Lists n) : Capture where
  history := a.tables i
  nodePool := a.pool
  histMem := s.heap.records.mem
  histPool := a.histPool
  historyTotals := s.historyTotals
  historyPos := s.historyPos
  historyLen := s.historyLen

/-- Memory that is what the lists say is in step with them. -/
theorem inStep_start {s : Rotating n} {a : Lists n} (r : Refines s.heap a)
    (hu : a.inUse.Perm ((a.tables i).nodes.map Node.record++rest)) :
    InStep i a.tables rest s.heap (captureOf i s a) := by
  refine ⟨?_,fun _ _ => rfl⟩
  have hr := r.reorder hu
  simpa only [captureOf,Function.update_eq_self] using hr

/-- The record of a node was last written in another slot than `pos`. -/
def stays (h : Heap n) (pos : Slot) (m : Node AddrPair ℕ) : Bool :=
  decide ((h.records.mem m.record).lastWrite≠pos)

/-- A rotation visits every node of the table once. The nodes that were last written in
another slot stay, in their old order and with the slot of their records cleared; the
records of the others are put on the free list, each once; and the table and the pools
are again what some lists say. -/
theorem historyRotate_exact {s : Rotating n} {a : Lists n} (r : Refines s.heap a)
    (hu : a.inUse.Perm ((a.tables i).nodes.map Node.record++rest)) :
    let pos := nextSlot s.historyPos
    let result := historyRotate i s
    (result.1=tableCells s.heap i ∧ result.1.Nodup) ∧
      (∀ b<hashTableSize,
        chainNodes result.2.heap i b=(chainNodes s.heap i b).filter (stays s.heap pos)) ∧
      (∀ m∈tableNodes result.2.heap i,
        result.2.heap.records.mem m.record=(s.heap.records.mem m.record).clearSlot pos) ∧
      freeRecords result.2.heap=
        (((tableNodes s.heap i).filter fun m => !stays s.heap pos m).map Node.record).reverse++
          freeRecords s.heap ∧
      ∃ a',Refines result.2.heap a' ∧ a'.inUse.Perm ((a'.tables i).nodes.map Node.record++rest) ∧
        ∀ j≠i,a'.tables j=a.tables j := by
  intro pos
  have w := inStep_start r hu
  have hstart : s.heap.hashNextItem i none=(a.tables i).nodes.head?.map Node.addr := by
    rw [←next_none]
    exact nextCell_none (r.holds i)
  obtain ⟨hv,hw⟩ := rotateLoop_inStep pos (a.tables i).nodes [] s.heap _ w rfl (r.nodes_le i)
  have hloop := rotateLoop_spec pos (a.tables i).nodes [] _ w.sound rfl (r.nodes_le i)
  rw [←hstart] at hv hw
  unfold historyRotate
  dsimp only
  generalize rotateLoop i pos s.heap.fuel (s.heap.hashNextItem i none) s.heap=result at hv hw ⊢
  generalize History.rotateLoop pos s.heap.fuel (a.tables i).nodes.head? (captureOf i s a)=c
    at hw hloop
  obtain ⟨-,hn,-,hy,hfree,-⟩ := hloop
  rw [List.nil_append] at hn
  have hsurvives : survives pos (captureOf i s a)=stays s.heap pos := rfl
  rw [hsurvives] at hn hy hfree
  have hnodes : tableNodes result.2 i=c.history.nodes := by
    rw [tableNodes_eq hw.refines]
    exact congrArg Table.nodes (Function.update_self ..)
  refine ⟨⟨?_,?_⟩,fun b hb => ?_,fun m hm => ?_,?_,?_⟩
  · rw [hv,tableCells_eq r]
  · rw [hv]
    exact r.addressed i
  · rw [chainNodes_eq hw.refines i hb,chainNodes_eq r i hb]
    dsimp only
    rw [Function.update_self,chain_eq_filter c.history hb,chain_eq_filter (a.tables i) hb,hn,
      List.filter_filter,List.filter_filter]
    exact List.filter_congr fun m _ => Bool.and_comm _ _
  · rw [hnodes] at hm
    rw [hw.records m hm]
    rw [hn] at hm
    exact hy m hm
  · rw [freeRecords_eq hw.refines,freeRecords_eq r,tableNodes_eq r]
    exact hfree
  · refine ⟨_,hw.refines,?_,fun j hj => Function.update_of_ne hj _ _⟩
    dsimp only
    rw [Function.update_self]

/-- A flow is added: a record is created and inserted under its key. -/
def addFlow (s : State 1) (key : AddrPair) : State 1 :=
  step (step s .create) (.insert ⟨0,by decide⟩ key s.heap.historyCreate.1)

/-- All records that were handed out are in the table. -/
def Tabled (s : State 1) : Prop :=
  ∃ a : Lists 1,Refines s.heap a ∧ a.inUse=s.inUse ∧
    a.inUse.Perm ((a.tables ⟨0,by decide⟩).nodes.map Node.record)

/-- Adding a flow keeps the records in use in the table. -/
theorem Tabled.addFlow {s : State 1} (h : Tabled s) (key : AddrPair) : Tabled (addFlow s key) := by
  obtain ⟨a,r,hu,hp⟩ := h
  have hcreate : Called s .create := trivial
  obtain ⟨r₁,hu₁⟩ := step_refines r hu hcreate
  have hinsert : Called (step s .create) (.insert ⟨0,by decide⟩ key s.heap.historyCreate.1) := trivial
  obtain ⟨r₂,hu₂⟩ := step_refines r₁ hu₁ hinsert
  refine ⟨_,r₂,hu₂,?_⟩
  have hrecord : (listStep s.heap a .create).inUse=s.heap.historyCreate.1::a.inUse := by
    rw [hu₁,hu]
    rfl
  have htable : (listStep (step s .create).heap (listStep s.heap a .create)
      (.insert ⟨0,by decide⟩ key s.heap.historyCreate.1)).tables ⟨0,by decide⟩=
      (a.tables ⟨0,by decide⟩).push (a.pool.alloc poolBlockSize).1 key s.heap.historyCreate.1 := by
    unfold listStep Lists.setTable
    dsimp only
    rw [Function.update_self]
    rfl
  have hnodes := (nodes_push (a.tables ⟨0,by decide⟩) (a.pool.alloc poolBlockSize).1 key
    s.heap.historyCreate.1).map Node.record
  have hinUse : (listStep (step s .create).heap (listStep s.heap a .create)
      (.insert ⟨0,by decide⟩ key s.heap.historyCreate.1)).inUse=
      (listStep s.heap a .create).inUse := rfl
  rw [htable,hinUse,hrecord]
  exact (hp.cons _).trans hnodes.symm

/-- A flow with a protocol. -/
def flowOf (protocol : UInt16) : AddrPair := {AddrPair.zero with protocol := protocol}

/-- Three flows in one chain. -/
def addedFlows : State 1 :=
  let start : State 1 := State.init (fun _ => ⟨none,AddrPair.zero,0,0⟩) fun _ => HistoryType.zero
  addFlow (addFlow (addFlow start (flowOf 6)) (flowOf 17)) (flowOf 1)

/-- The second of them is written in slot five. -/
def writeSecond : Op 1 := .write 1 {HistoryType.zero with lastWrite := ⟨5,by decide⟩}

/-- The flows after the second record was written to. -/
def threeFlows : State 1 := step addedFlows writeSecond

/-- All records of `threeFlows` are in its table. -/
theorem threeFlows_tabled : Tabled threeFlows := by
  have hstart : Tabled (State.init (fun _ => ⟨none,AddrPair.zero,0,0⟩) fun _ => HistoryType.zero) :=
    ⟨_,refines_init ..,rfl,by rw [nodes_empty]; rfl⟩
  obtain ⟨a,r,hu,hp⟩ := ((hstart.addFlow (flowOf 6)).addFlow (flowOf 17)).addFlow (flowOf 1)
  have hcalled : Called addedFlows writeSecond := by
    have hmem : 1∈addedFlows.inUse := by decide +kernel
    exact hmem
  obtain ⟨r',hu'⟩ := step_refines r hu hcalled
  exact ⟨a,r',hu',hp⟩

/-- When the ring enters slot zero all three are visited, and the second one stays. -/
theorem historyRotate_exact_threeFlows :
    let result := historyRotate ⟨0,by decide⟩ ⟨threeFlows.heap,HistoryType.zero,39,40⟩
    let chain := fun h : Heap 1 =>
      (chainNodes h ⟨0,by decide⟩ (addrHashBucket (flowOf 6))).map fun m => m.key.protocol
    result.1=tableCells threeFlows.heap ⟨0,by decide⟩ ∧ chain threeFlows.heap=[1,17,6] ∧
      chain result.2.heap=[17] := by
  intro result chain
  obtain ⟨a,r,-,hp⟩ := threeFlows_tabled
  rw [←List.append_nil (List.map _ _)] at hp
  obtain ⟨⟨hv,-⟩,hc,-⟩ :=
    historyRotate_exact (s := ⟨threeFlows.heap,HistoryType.zero,39,40⟩) r hp
  refine ⟨hv,by decide +kernel,?_⟩
  have hchain := hc (addrHashBucket (flowOf 6)) (by decide)
  show List.map _ (chainNodes result.2.heap _ _)=_
  rw [hchain]
  decide +kernel

end IftopColor.ExactRotation
