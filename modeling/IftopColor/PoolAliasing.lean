import IftopColor.AddrHeap
import IftopColor.GuardedRun

/-!
# Pools never hand out an item twice

Any number of address tables insert, remove and empty at will, flow records are
created, written and freed, and all of it happens on pointers in one memory. In
every state of every run, the items of the blocks of both pools are shared out:
each of them is met once, on the way along one chain of one table or along the free
list. What a table holds is read through its pointers, so that a wrong link
anywhere would show.
-/

namespace IftopColor.PoolAliasing

open ChainTable BlockPool AddrHash History LinkedCells ChainHeap PoolHeap AddrHeap GuardedRun

variable {n : ℕ}

/-- Cells met along a chain of a table. -/
def chainCells (h : Heap n) (i : Fin n) (b : ℕ) : List ℕ :=
  walk (nextOf h.nodes.mem) h.fuel (h.tables i b)

/-- Cells met along all chains of a table. -/
def tableCells (h : Heap n) (i : Fin n) : List ℕ :=
  (List.range hashTableSize).flatMap (chainCells h i)

/-- Addresses, keys, records and cached buckets along a chain of a table. -/
def chainNodes (h : Heap n) (i : Fin n) (b : ℕ) : List (Node AddrPair ℕ) :=
  (chainCells h i b).map (nodeAt h.nodes.mem)

/-- Nodes met along `free_list`. -/
def freeNodes (h : Heap n) : List ℕ := walk (linkOf nodeLink h.nodes.mem) h.fuel h.nodes.freeList

/-- Records met along `hist_free_list`. -/
def freeRecords (h : Heap n) : List ℕ :=
  walk (linkOf recordLink h.records.mem) (historyPoolBlock*h.records.blocks) h.records.freeList

section Reading

variable {h : Heap n} {a : Lists n}

/-- The cells of a chain are those of its list. -/
theorem chainCells_eq (r : Refines h a) (i : Fin n) {b : ℕ} (hb : b<hashTableSize) :
    chainCells h i b=((a.tables i).chain b).map Node.addr :=
  LinkedCells.walk_eq ((r.holds i).chains b hb) (by
    rw [List.length_map]
    exact r.chain_le i hb)

/-- The cells of a table are its nodes. -/
theorem tableCells_eq (r : Refines h a) (i : Fin n) : tableCells h i=addrs (a.tables i) := by
  have he : tableCells h i=(List.range hashTableSize).flatMap
      fun b => ((a.tables i).chain b).map Node.addr :=
    List.flatMap_congr fun b hb => chainCells_eq r i (List.mem_range.mp hb)
  rw [he,addrs,Table.nodes,List.map_flatMap]
  rfl

/-- The nodes of a chain are those of its list. -/
theorem chainNodes_eq (r : Refines h a) (i : Fin n) {b : ℕ} (hb : b<hashTableSize) :
    chainNodes h i b=(a.tables i).chain b := by
  have he : ∀ m∈(a.tables i).chain b,nodeAt h.nodes.mem m.addr=m :=
    fun m hm => (r.holds i).nodes m (mem_nodes_of_chain hb hm)
  rw [chainNodes,chainCells_eq r i hb,List.map_map]
  exact (List.map_congr_left he).trans (List.map_id' _)

/-- A free list is not longer than the number of items. -/
theorem free_le {blockSize : ℕ} {pool : Pool} {used : List ℕ} (h : Owns blockSize pool used) :
    pool.free.length≤blockSize*pool.blocks := by
  have hl := h.length_eq
  rw [List.length_append,List.length_range] at hl
  omega

/-- The nodes along `free_list` are the free items of the pool. -/
theorem freeNodes_eq (r : Refines h a) : freeNodes h=a.pool.free :=
  LinkedCells.walk_eq r.nodes.chain (by
    rw [Heap.fuel,r.nodes.blocks]
    exact free_le r.owns)

/-- The records along `hist_free_list`. -/
theorem freeRecords_eq (r : Refines h a) : freeRecords h=a.histPool.free :=
  LinkedCells.walk_eq r.records.chain (by
    rw [r.records.blocks]
    exact free_le r.ownsRecords)

end Reading

/-- Memory, and the records that were handed out and not yet freed. -/
structure State (n : ℕ) where
  /-- Tables and pools. -/
  heap : Heap n
  /-- Records handed out. -/
  inUse : List ℕ

/-- Nothing has been allocated; memory that was not obtained yet has any content. -/
def State.init (node : ℕ→NodeCell) (record : ℕ→HistoryType) : State n :=
  ⟨Heap.init node record,[]⟩

/-- What the program does with tables and records. -/
inductive Op (n : ℕ) where
  | insert (i : Fin n) (key : AddrPair) (record : ℕ)
  | deleteNode (i : Fin n) (target : ℕ)
  | deleteAllFree (i : Fin n)
  | create
  | free (hist : ℕ)
  | write (hist : ℕ) (value : HistoryType)

/-- The table an operation is called for. -/
def Op.table : Op n→Option (Fin n)
  | .insert i _ _ => some i
  | .deleteNode i _ => some i
  | .deleteAllFree i => some i
  | _ => none

/-- One operation. -/
def step (s : State n) : Op n→State n
  | .insert i key record => {s with heap := s.heap.addrHashInsert i key record}
  | .deleteNode i target => {s with heap := s.heap.addrHashDeleteNode i target}
  | .deleteAllFree i => {s with heap := (s.heap.addrHashDeleteAllFree i).1}
  | .create => ⟨s.heap.historyCreate.2,s.heap.historyCreate.1::s.inUse⟩
  | .free hist => ⟨s.heap.historyFree hist,s.inUse.erase hist⟩
  | .write hist value => {s with heap := s.heap.writeRecord hist value}

/-- What callers keep to: a node to be deleted has a cached bucket, as every node has
that was ever inserted in any table; only records that were handed out are written and
freed. -/
def Called (s : State n) : Op n→Prop
  | .deleteNode _ target => (s.heap.nodes.mem target).bucket<hashTableSize
  | .free hist => hist∈s.inUse
  | .write hist _ => hist∈s.inUse
  | _ => True

/-- States of runs from the start of the program. -/
abbrev Reached (node : ℕ→NodeCell) (record : ℕ→HistoryType) : State n→Prop :=
  Run (fun s op => some (step s op)) Called (State.init node record)

/-- The operation on lists. -/
def listStep (h : Heap n) (a : Lists n) : Op n→Lists n
  | .insert i key record => a.setTable i (addrHashInsert (a.tables i) a.pool key record)
  | .deleteNode i target =>
    a.setTable i (addrHashDeleteNode (a.tables i) a.pool (nodeAt h.nodes.mem target))
  | .deleteAllFree i =>
    let (table,pool,_) := addrHashDeleteAllFree (a.tables i) a.pool
    a.setTable i (table,pool)
  | .create =>
    let (hist,histPool) := a.histPool.alloc historyPoolBlock
    {a with histPool := histPool,inUse := hist::a.inUse}
  | .free hist => {a with histPool := a.histPool.release hist,inUse := a.inUse.erase hist}
  | .write _ _ => a

/-- One operation is the operation on lists. -/
theorem step_refines {s : State n} {a : Lists n} (r : Refines s.heap a) (hu : a.inUse=s.inUse)
    {op : Op n} (hc : Called s op) :
    Refines (step s op).heap (listStep s.heap a op) ∧
      (listStep s.heap a op).inUse=(step s op).inUse := by
  cases op with
  | insert i key record => exact ⟨addrHashInsert_refines r i key record,hu⟩
  | deleteNode i target => exact ⟨addrHashDeleteNode_refines r hc,hu⟩
  | deleteAllFree i => exact ⟨(addrHashDeleteAllFree_refines r i).1,hu⟩
  | create =>
    obtain ⟨-,-,-,he,hr⟩ := historyCreate_refines r
    rw [he] at hr
    exact ⟨hr,congrArg₂ List.cons he.symm hu⟩
  | free hist => exact ⟨(historyFree_refines r (hu ▸ hc)).1,congrArg (List.erase · hist) hu⟩
  | write hist value => exact ⟨writeRecord_refines r (hu ▸ hc) value,hu⟩

/-- An operation on one table leaves the other tables alone. -/
theorem listStep_tables (h : Heap n) (a : Lists n) {op : Op n} {j : Fin n} (hj : op.table≠some j) :
    (listStep h a op).tables j=a.tables j := by
  have hset : ∀ {i : Fin n} (result : AddrTable×Pool),some i≠some j→
      (a.setTable i result).tables j=a.tables j :=
    fun result hne => Function.update_of_ne (fun he => hne (by rw [he])) _ _
  cases op with
  | insert i key record => exact hset _ hj
  | deleteNode i target => exact hset _ hj
  | deleteAllFree i => exact hset _ hj
  | _ => rfl

/-- The memory is what some lists say. -/
def Listed (s : State n) : Prop := ∃ a,Refines s.heap a ∧ a.inUse=s.inUse

/-- In every run the memory is what some lists say. -/
theorem Reached.listed {node : ℕ→NodeCell} {record : ℕ→HistoryType} {s : State n}
    (h : Reached node record s) : Listed s := by
  refine h.invariant ⟨_,refines_init node record,rfl⟩ ?_
  rintro s op s' ⟨a,r,hu⟩ hc hs
  obtain rfl : step s op=s' := by simpa using hs
  exact ⟨_,step_refines r hu hc⟩

/-- All pointers lead to their ends, and every item of every block is met once: in one
place of one table, or in the hands of one user, or on the free list. -/
structure SharedOut (s : State n) : Prop where
  /-- Chains end. -/
  chains : ∀ (i : Fin n),∀ b<hashTableSize,
    Chain (nextOf s.heap.nodes.mem) (s.heap.tables i b) (chainCells s.heap i b)
  /-- The free list of nodes ends. -/
  nodesEnd : Chain (linkOf nodeLink s.heap.nodes.mem) s.heap.nodes.freeList (freeNodes s.heap)
  /-- Every node is met once. -/
  nodes : ((List.finRange n).flatMap (tableCells s.heap)++freeNodes s.heap).Perm
    (List.range (poolBlockSize*s.heap.nodes.blocks))
  /-- The free list of records ends. -/
  recordsEnd : Chain (linkOf recordLink s.heap.records.mem) s.heap.records.freeList
    (freeRecords s.heap)
  /-- Every record is met once. -/
  records : (s.inUse++freeRecords s.heap).Perm
    (List.range (historyPoolBlock*s.heap.records.blocks))

/-- Memory that is what some lists say is shared out. -/
theorem sharedOut {s : State n} {a : Lists n} (r : Refines s.heap a) (hu : a.inUse=s.inUse) :
    SharedOut s := by
  refine ⟨fun i b hb => ?_,?_,?_,?_,?_⟩
  · rw [chainCells_eq r i hb]
    exact (r.holds i).chains b hb
  · rw [freeNodes_eq r]
    exact r.nodes.chain
  · rw [freeNodes_eq r,r.nodes.blocks,List.flatMap_congr fun i _ => tableCells_eq r i]
    exact r.owns
  · rw [freeRecords_eq r]
    exact r.records.chain
  · rw [freeRecords_eq r,r.records.blocks,←hu]
    exact r.ownsRecords

/-- The item an operation allocates is not in use. -/
def AllocatesUnused (s : State n) : Op n→Prop
  | .insert _ _ _ => ∀ j,(poolAlloc nodeLink poolBlockSize s.heap.nodes).1∉tableCells s.heap j
  | .create => s.heap.historyCreate.1∉s.inUse
  | _ => True

/-- An allocation takes an unused item. -/
theorem allocatesUnused {s : State n} {a : Lists n} (r : Refines s.heap a) (hu : a.inUse=s.inUse)
    (op : Op n) : AllocatesUnused s op := by
  cases op with
  | insert i key record =>
    intro j
    rw [tableCells_eq r j,(poolAlloc_pooled (by decide : 2≤poolBlockSize) r.nodes).1]
    exact (addrHashInsert_owns key record (r.owns_table j)).2
  | create =>
    rw [AllocatesUnused,←hu]
    exact (historyCreate_refines r).1
  | _ => trivial

/-- In every state of every run every item of both pools is in one place; whatever the
program does next takes an unused item if it takes one, leaves all other tables with
their nodes, keys, records and order, and starts a new record from zero. -/
theorem pools_never_alias {node : ℕ→NodeCell} {record : ℕ→HistoryType} {s : State n}
    (h : Reached node record s) :
    SharedOut s ∧ ∀ op,Called s op→
      SharedOut (step s op) ∧ AllocatesUnused s op ∧
      (∀ j,op.table≠some j→∀ b<hashTableSize,
        chainNodes (step s op).heap j b=chainNodes s.heap j b) ∧
      (op=.create→(step s op).heap.records.mem s.heap.historyCreate.1=HistoryType.zero) := by
  obtain ⟨a,r,hu⟩ := h.listed
  refine ⟨sharedOut r hu,fun op hc => ?_⟩
  obtain ⟨r',hu'⟩ := step_refines r hu hc
  refine ⟨sharedOut r' hu',allocatesUnused r hu op,fun j hj b hb => ?_,?_⟩
  · rw [chainNodes_eq r' j hb,chainNodes_eq r j hb,listStep_tables _ _ hj]
  · rintro rfl
    exact (historyCreate_refines r).2.1

/-- Two tables with one node each, both from the first block. -/
def twoTables : State 2 :=
  let s := State.init (fun _ => ⟨none,AddrPair.zero,0,0⟩) fun _ => HistoryType.zero
  step (step s (.insert 0 AddrPair.zero 7)) (.insert 1 AddrPair.zero 8)

/-- Deleting the node of one table leaves the other. -/
theorem pools_never_alias_twoTables :
    SharedOut twoTables ∧ SharedOut (step twoTables (.deleteNode 0 0)) ∧
      ∀ b<hashTableSize,
        chainNodes (step twoTables (.deleteNode 0 0)).heap 1 b=chainNodes twoTables.heap 1 b := by
  have hrun : Reached (fun _ => ⟨none,AddrPair.zero,0,0⟩) (fun _ => HistoryType.zero) twoTables :=
    .step (a:=.insert 1 AddrPair.zero 8) (.step (a:=.insert 0 AddrPair.zero 7) .init trivial rfl)
      trivial rfl
  have hbucket : (twoTables.heap.nodes.mem 0).bucket<hashTableSize := by decide
  obtain ⟨h1,h2⟩ := pools_never_alias hrun
  obtain ⟨h3,-,h4,-⟩ := h2 (.deleteNode 0 0) hbucket
  exact ⟨h1,h3,h4 1 (by decide)⟩

end IftopColor.PoolAliasing
