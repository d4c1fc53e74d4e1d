import IftopColor.ChainHeap
import IftopColor.History
import IftopColor.PoolHeap

/-!
# Address tables and pools as pointers

The nodes of all address tables are items of one pool, linked through the same
field whether they are in a chain or free; flow records are items of a second pool,
with the link of a free record over its first slot. This is the memory behind the
tables and pools of lists of the other modules. Every operation on pointers does
what the operation of the same name does on lists, on the table it is called for,
and leaves the nodes of all other tables alone.
-/

namespace IftopColor.AddrHeap

open ChainTable BlockPool AddrHash History LinkedCells ChainHeap PoolHeap

/-- A node in memory; its key is stored next to it. -/
abbrev NodeCell := Cell AddrPair ℕ

/-- A free node is linked through its member `next`. -/
def nodeLink : LinkField NodeCell := ⟨Cell.next,fun v c => {c with next := v},fun _ _ => rfl⟩

/-- A free record is linked through its first bytes, which are the first slot of
`recv`; the null pointer is zero. -/
def recordLink : LinkField HistoryType where
  get r := if r.recv 0=0 then none else some (r.recv 0-1)
  set v r := {r with recv := Function.update r.recv 0 (match v with | none => 0 | some a => a+1)}
  get_set := by
    intro v r
    cases v <;> simp

/-- Some address tables, the pool of their nodes and the pool of flow records. -/
structure Heap (n : ℕ) where
  /-- Nodes, `free_list` and `pool_blocks`. -/
  nodes : PoolMem NodeCell
  /-- Members `table` of the tables. -/
  tables : Fin n→Heads
  /-- Records, `hist_free_list` and `hist_pool_blocks`. -/
  records : PoolMem HistoryType

namespace Heap

variable {n : ℕ}

/-- Nothing has been inserted; memory that was not obtained yet has any content. -/
def init (node : ℕ→NodeCell) (record : ℕ→HistoryType) : Heap n :=
  ⟨⟨node,none,0⟩,fun _ _ => none,⟨record,none,0⟩⟩

/-- No chain is longer than the number of nodes. -/
def fuel (h : Heap n) : ℕ := poolBlockSize*h.nodes.blocks

/-- The loop of `addr_hash_find`. -/
def findLoop (mem : ℕ→NodeCell) (key : AddrPair) : ℕ→Option ℕ→Option ℕ
  | 0,_ => none
  | _+1,none => none
  | fuel+1,some node =>
    if addrCompare (mem node).key key then some (mem node).record
    else findLoop mem key fuel (mem node).next

/-- `addr_hash_find`. -/
def addrHashFind (i : Fin n) (key : AddrPair) (h : Heap n) : Option ℕ :=
  findLoop h.nodes.mem key h.fuel (h.tables i (addrHashBucket key))

/-- `hash_find` on an address table. -/
def hashFind (i : Fin n) (key : AddrPair) (h : Heap n) : Option ℕ :=
  (findCell addrHashSpec h.nodes.mem (h.tables i) h.fuel key).map fun node =>
    (h.nodes.mem node).record

/-- `addr_hash_insert`. -/
def addrHashInsert (i : Fin n) (key : AddrPair) (record : ℕ) (h : Heap n) : Heap n :=
  let (node,nodes) := poolAlloc nodeLink poolBlockSize h.nodes
  let (mem,heads) := pushCell addrHashSpec nodes.mem (h.tables i) node key record
  {h with nodes := {nodes with mem := mem},tables := Function.update h.tables i heads}

/-- `addr_hash_delete_node`. -/
def addrHashDeleteNode (i : Fin n) (target : ℕ) (h : Heap n) : Heap n :=
  let bucket := (h.nodes.mem target).bucket
  match unlinkCell h.nodes.mem (h.tables i) h.fuel bucket fun node => node==target with
  | none => h
  | some (node,mem,heads) => {h with
      nodes := poolFree nodeLink node {h.nodes with mem := mem}
      tables := Function.update h.tables i heads}

/-- The body of the loops of `addr_hash_delete_all_free`: the node goes back to the pool,
and its record is freed. -/
def freeNode (s : PoolMem NodeCell×List ℕ) (node : ℕ) : PoolMem NodeCell×List ℕ :=
  (poolFree nodeLink node s.1,s.2++[(s.1.mem node).record])

/-- `addr_hash_delete_all_free`, and the records it frees. -/
def addrHashDeleteAllFree (i : Fin n) (h : Heap n) : Heap n×List ℕ :=
  let (nodes,freed) :=
    drainTable addrHashSpec (fun s => nextOf s.1.mem) freeNode (h.tables i) h.fuel (h.nodes,[])
  ({h with nodes := nodes,tables := Function.update h.tables i fun _ => none},freed)

/-- `hash_next_item` on an address table. -/
def hashNextItem (i : Fin n) (node : Option ℕ) (h : Heap n) : Option ℕ :=
  nextCell addrHashSpec h.nodes.mem (h.tables i) node

/-- `history_create`. -/
def historyCreate (h : Heap n) : ℕ×Heap n :=
  let (hist,records) := poolAlloc recordLink historyPoolBlock h.records
  (hist,{h with
    records := {records with mem := Function.update records.mem hist HistoryType.zero}})

/-- `history_free`. -/
def historyFree (hist : ℕ) (h : Heap n) : Heap n :=
  {h with records := poolFree recordLink hist h.records}

/-- A write to a record. -/
def writeRecord (hist : ℕ) (value : HistoryType) (h : Heap n) : Heap n :=
  {h with records := {h.records with mem := Function.update h.records.mem hist value}}

end Heap

/-- Tables and pools of lists, and the records that were handed out and not freed. -/
structure Lists (n : ℕ) where
  /-- Tables. -/
  tables : Fin n→AddrTable
  /-- Pool of nodes. -/
  pool : Pool
  /-- Pool of records. -/
  histPool : Pool
  /-- Records handed out. -/
  inUse : List ℕ

variable {n : ℕ}

/-- Addresses of the nodes of some tables. -/
def allAddrs (tables : Fin n→AddrTable) : List ℕ :=
  (List.finRange n).flatMap fun i => addrs (tables i)

/-- Addresses of the nodes of the other tables. -/
def otherAddrs (i : Fin n) (tables : Fin n→AddrTable) : List ℕ :=
  ((List.finRange n).erase i).flatMap fun i => addrs (tables i)

/-- The heap is what the lists say, and pools and tables share their items out. -/
structure Refines (h : Heap n) (a : Lists n) : Prop where
  /-- Chains. -/
  holds : ∀ i,Holds h.nodes.mem (h.tables i) (a.tables i)
  /-- Free nodes. -/
  nodes : Pooled nodeLink h.nodes a.pool
  /-- Every node is free or in one table. -/
  owns : Owns poolBlockSize a.pool (allAddrs a.tables)
  /-- Free records. -/
  records : Pooled recordLink h.records a.histPool
  /-- Every record is free or handed out. -/
  ownsRecords : Owns historyPoolBlock a.histPool a.inUse

variable {h : Heap n} {a : Lists n} {i : Fin n}

/-- The nodes of one table and those of the others. -/
theorem allAddrs_perm (i : Fin n) (tables : Fin n→AddrTable) :
    (allAddrs tables).Perm (addrs (tables i)++otherAddrs i tables) := by
  have hp := List.perm_cons_erase (List.mem_finRange i)
  have hf := hp.flatMap_right fun i => addrs (tables i)
  rwa [List.flatMap_cons] at hf

/-- Exchanging one table leaves the nodes of the others. -/
theorem otherAddrs_update (tables : Fin n→AddrTable) (t : AddrTable) :
    otherAddrs i (Function.update tables i t)=otherAddrs i tables := by
  apply List.flatMap_congr
  intro j hj
  have hne : j≠i := by
    rintro rfl
    exact (List.nodup_finRange n).not_mem_erase hj
  rw [Function.update_of_ne hne]

/-- Nodes of another table are among the other nodes. -/
theorem mem_otherAddrs {tables : Fin n→AddrTable} {j : Fin n} (hne : j≠i) {x : ℕ}
    (hx : x∈addrs (tables j)) : x∈otherAddrs i tables :=
  List.mem_flatMap.mpr ⟨j,(List.mem_erase_of_ne hne).mpr (List.mem_finRange j),hx⟩

/-- The nodes of one table beside the others. -/
theorem Refines.owns_table (r : Refines h a) (i : Fin n) :
    Owns poolBlockSize a.pool (addrs (a.tables i)++otherAddrs i a.tables) :=
  r.owns.perm (allAddrs_perm i a.tables)

/-- Nodes have pairwise different addresses. -/
theorem Refines.addressed (r : Refines h a) (i : Fin n) : (a.tables i).Addressed :=
  (r.owns_table i).nodup.of_append_left

/-- A node that is in a table is not free. -/
theorem Refines.notMem_free (r : Refines h a) {x : ℕ} (hx : x∈addrs (a.tables i)) :
    x∉a.pool.free := by
  intro hf
  have hd := (r.owns_table i).nodup_iff.mpr List.nodup_range
  exact (List.nodup_append.mp hd).2.2 x (List.mem_append_left _ hx) x hf rfl

/-- No node of one table is a node of another, so a change of one leaves the others. -/
theorem Refines.notMem_other (r : Refines h a) {x : ℕ} (hx : x∈otherAddrs i a.tables) :
    x∉addrs (a.tables i) :=
  fun hin => (List.nodup_append.mp (r.owns_table i).nodup).2.2 x hin x hx rfl

/-- Nodes of tables lie in the blocks of the pool. -/
theorem Refines.addr_lt (r : Refines h a) {x : ℕ} (hx : x∈addrs (a.tables i)) :
    x<poolBlockSize*a.pool.blocks :=
  Owns.lt (r.owns_table i) (List.mem_append_left _ (List.mem_append_left _ hx))

/-- No chain is longer than the loops may be. -/
theorem Refines.chain_le (r : Refines h a) (i : Fin n) {b : ℕ} (hb : b<hashTableSize) :
    ((a.tables i).chain b).length≤h.fuel := by
  have hnodup := Chain.nodup ((r.holds i).chains b hb)
  have hsub : ((a.tables i).chain b).map Node.addr ⊆ List.range h.fuel := by
    intro x hx
    obtain ⟨m,hm,rfl⟩ := List.mem_map.mp hx
    rw [Heap.fuel,r.nodes.blocks]
    exact List.mem_range.mpr (r.addr_lt (List.mem_map_of_mem (mem_nodes_of_chain hb hm)))
  have hle := (List.subperm_of_subset hnodup hsub).length_le
  rwa [List.length_map,List.length_range] at hle

/-- A table has at most as many nodes as loops over it have fuel. -/
theorem Refines.nodes_le (r : Refines h a) (i : Fin n) : (a.tables i).nodes.length≤h.fuel := by
  have hl := (r.owns_table i).length_eq
  simp only [List.length_append,List.length_map,List.length_range] at hl
  rw [Heap.fuel,r.nodes.blocks]
  omega

/-- One table and the pool of nodes were exchanged. -/
def Lists.setTable (a : Lists n) (i : Fin n) (result : AddrTable×Pool) : Lists n :=
  {a with tables := Function.update a.tables i result.1,pool := result.2}

/-- Putting a table and the pool back in their places changes nothing. -/
theorem setTable_self (a : Lists n) (i : Fin n) : a.setTable i (a.tables i,a.pool)=a := by
  simp only [Lists.setTable,Function.update_eq_self]

/-- Nodes that were shared out anew between one table and the pool. -/
theorem owns_setTable {result : AddrTable×Pool}
    (ho : Owns poolBlockSize result.2 (addrs result.1++otherAddrs i a.tables)) :
    Owns poolBlockSize (a.setTable i result).pool (allAddrs (a.setTable i result).tables) := by
  have hp := allAddrs_perm i (a.setTable i result).tables
  refine ho.perm ?_
  simp only [Lists.setTable,Function.update_self,otherAddrs_update] at hp ⊢
  exact hp.symm

/-- Chains of one table that were changed, beside the chains of the others. -/
theorem holds_setTable (r : Refines h a) {result : AddrTable×Pool} {mem : ℕ→NodeCell}
    {heads : Heads} (ht : Holds mem heads result.1)
    (hother : ∀ x∈otherAddrs i a.tables,mem x=h.nodes.mem x) (j : Fin n) :
    Holds mem (Function.update h.tables i heads j) ((a.setTable i result).tables j) := by
  by_cases hne : j=i
  · subst hne
    simp only [Lists.setTable,Function.update_self]
    exact ht
  · simp only [Lists.setTable,Function.update_of_ne hne]
    exact (r.holds j).congr fun m hm => hother _ (mem_otherAddrs hne (List.mem_map_of_mem hm))

/-- The empty heap refines empty lists and empty pools. -/
theorem refines_init (node : ℕ→NodeCell) (record : ℕ→HistoryType) :
    Refines (Heap.init node record : Heap n)
      ⟨fun _ => Table.empty,Pool.empty,Pool.empty,[]⟩ := by
  refine ⟨fun i => holds_empty node,pooled_empty node,?_,pooled_empty record,owns_empty⟩
  have he : allAddrs (fun _ : Fin n => (Table.empty : AddrTable))=[] := by
    simp [allAddrs,addrs]
  rw [he]
  exact owns_empty

/-- Inserting into the heap refines inserting into the list of the table. -/
theorem addrHashInsert_refines (r : Refines h a) (i : Fin n) (key : AddrPair) (record : ℕ) :
    Refines (h.addrHashInsert i key record)
      (a.setTable i (addrHashInsert (a.tables i) a.pool key record)) := by
  obtain ⟨hnode,hpooled,hmem⟩ := poolAlloc_pooled (by decide : 2≤poolBlockSize) r.nodes
  obtain ⟨howns,hfresh⟩ := addrHashInsert_owns key record (r.owns_table i)
  have hall := alloc_owns (by decide : 0<poolBlockSize) (r.owns_table i)
  have hnodup := hall.nodup_iff.mpr List.nodup_range
  unfold Heap.addrHashInsert
  generalize poolAlloc nodeLink poolBlockSize h.nodes=alloc at hnode hpooled hmem ⊢
  obtain ⟨node,nodes⟩ := alloc
  dsimp only at hnode hpooled hmem ⊢
  subst hnode
  have hold : Holds nodes.mem (h.tables i) (a.tables i) :=
    (r.holds i).congr fun m hm => hmem _ (r.addr_lt (List.mem_map_of_mem hm))
  have hne : ∀ x∈otherAddrs i a.tables,x≠(a.pool.alloc poolBlockSize).1 := by
    rintro x hx rfl
    exact (List.nodup_cons.mp hnodup).1 (List.mem_append_left _ (List.mem_append_right _ hx))
  refine ⟨fun j => ?_,?_,owns_setTable howns,r.records,r.ownsRecords⟩
  · refine holds_setTable r (pushCell_holds hold hfresh key record) (fun x hx => ?_) j
    simp only [pushCell]
    rw [Function.update_of_ne (hne x hx)]
    exact hmem x (Owns.lt (r.owns_table i) (List.mem_append_left _ (List.mem_append_right _ hx)))
  · refine hpooled.congr fun x hx => Function.update_of_ne ?_ _ _
    rintro rfl
    exact (List.nodup_cons.mp hnodup).1 (List.mem_append_right _ hx)

/-- An address that its bucket does not have is not removed. -/
theorem addrHashDeleteNode_absent (r : Refines h a) {target : ℕ}
    (hb : (h.nodes.mem target).bucket<hashTableSize)
    (hf : ((a.tables i).chain (h.nodes.mem target).bucket).find? (fun m => m.addr==target)=none) :
    h.addrHashDeleteNode i target=h := by
  have hunlink := unlinkCell_eq (p:=fun m => m==target) (q:=fun m => m.addr==target)
    (r.holds i) (r.addressed i) hb (fun m _ => rfl) (r.chain_le i hb)
  rw [hf] at hunlink
  unfold Heap.addrHashDeleteNode
  dsimp only
  rw [hunlink]

/-- Removing a node of the table from the heap removes it from its list. -/
theorem addrHashDeleteNode_linked (r : Refines h a) {m : Node AddrPair ℕ}
    (hm : m∈(a.tables i).nodes) :
    Refines (h.addrHashDeleteNode i m.addr)
      (a.setTable i (addrHashDeleteNode (a.tables i) a.pool m)) := by
  have ha := r.addressed i
  have hb := (mem_chain hm).1
  have hbucket : (h.nodes.mem m.addr).bucket=m.bucket :=
    congrArg Node.bucket ((r.holds i).nodes m hm)
  have hunlink := unlinkCell_eq (p:=fun x => x==m.addr) (q:=fun x => x.addr==m.addr)
    (r.holds i) ha hb (fun x _ => rfl) (r.chain_le i hb)
  rw [find_addr ha hm] at hunlink
  obtain ⟨mem,heads,hunlink,hholds,hframe⟩ := hunlink
  obtain ⟨xs,ys,hs⟩ := List.append_of_mem hm
  have howns := addrHashDeleteNode_owns ha hs (r.owns_table i)
  have hpooled : Pooled nodeLink {h.nodes with mem := mem} a.pool :=
    r.nodes.congr fun x hx => hframe x fun hin => r.notMem_free hin hx
  obtain ⟨hfreed,hout⟩ := poolFree_pooled hpooled (r.notMem_free (List.mem_map_of_mem hm))
  rw [addrHashDeleteNode,find_addr ha hm] at howns ⊢
  unfold Heap.addrHashDeleteNode
  dsimp only
  rw [hbucket,hunlink]
  refine ⟨holds_setTable r ?_ fun x hx => ?_,hfreed,owns_setTable howns,r.records,r.ownsRecords⟩
  · refine hholds.congr fun x hx => hout _ ?_
    rw [nodes_unlink_addr ha hs] at hx
    exact addr_ne_of_split ha hs x hx
  · have hother := r.notMem_other hx
    have hne : x≠m.addr := fun he => hother (he ▸ List.mem_map_of_mem hm)
    rw [hout x hne]
    exact hframe x hother

/-- The removal of a node by its address. The address may be that of any node whose cached
bucket exists; nothing happens when that bucket does not have the node. -/
theorem addrHashDeleteNode_refines (r : Refines h a) {target : ℕ}
    (hb : (h.nodes.mem target).bucket<hashTableSize) :
    Refines (h.addrHashDeleteNode i target)
      (a.setTable i (addrHashDeleteNode (a.tables i) a.pool (nodeAt h.nodes.mem target))) := by
  cases hf : ((a.tables i).chain (h.nodes.mem target).bucket).find? fun m => m.addr==target with
  | none =>
    have hlist : addrHashDeleteNode (a.tables i) a.pool (nodeAt h.nodes.mem target)=
        (a.tables i,a.pool) := by
      simp only [addrHashDeleteNode,nodeAt,hf]
    rw [hlist,setTable_self,addrHashDeleteNode_absent r hb hf]
    exact r
  | some m =>
    have hm : m∈(a.tables i).nodes := mem_nodes_of_chain hb (List.mem_of_find?_eq_some hf)
    obtain rfl : m.addr=target := by simpa using List.find?_some hf
    rw [(r.holds i).nodes m hm]
    exact addrHashDeleteNode_linked r hm

/-- Nodes that are in memory and not free. -/
structure Busy (nodes : PoolMem NodeCell) (pool : Pool) (ns : List (Node AddrPair ℕ)) : Prop where
  /-- The pool. -/
  pooled : Pooled nodeLink nodes pool
  /-- Every node is in its cell. -/
  stored : ∀ m∈ns,nodeAt nodes.mem m.addr=m
  /-- None is on the free list. -/
  notFree : ∀ m∈ns,m.addr∉pool.free
  /-- The nodes of a flow list lie at different addresses. -/
  nodup : (ns.map Node.addr).Nodup

variable {nodes : PoolMem NodeCell} {pool : Pool} {fuel : ℕ}

/-- Freeing one node leaves the others. -/
theorem Busy.release {m : Node AddrPair ℕ} {ns : List (Node AddrPair ℕ)}
    (hb : Busy nodes pool (m::ns)) :
    Busy (poolFree nodeLink m.addr nodes) (pool.release m.addr) ns ∧
      ∀ x≠m.addr,(poolFree nodeLink m.addr nodes).mem x=nodes.mem x := by
  obtain ⟨hp,hout⟩ := poolFree_pooled hb.pooled (hb.notFree m (List.mem_cons_self ..))
  obtain ⟨hm,hnodup⟩ := List.nodup_cons.mp hb.nodup
  have hne : ∀ x∈ns,x.addr≠m.addr := fun x hx he => hm (he ▸ List.mem_map_of_mem hx)
  refine ⟨⟨hp,fun x hx => ?_,fun x hx hin => ?_,hnodup⟩,hout⟩
  · rw [nodeAt,hout _ (hne x hx)]
    exact hb.stored x (List.mem_cons_of_mem _ hx)
  · rcases List.mem_cons.mp hin with he|hin
    · exact hne x hx he
    · exact hb.notFree x (List.mem_cons_of_mem _ hx) hin

/-- Freeing nodes one after the other. -/
theorem foldl_freeNode (ns : List (Node AddrPair ℕ)) :
    ∀ {nodes : PoolMem NodeCell} {pool : Pool} (freed : List ℕ),Busy nodes pool ns→
      let r := (ns.map Node.addr).foldl Heap.freeNode (nodes,freed)
      Pooled nodeLink r.1 (ns.foldl (fun pool m => pool.release m.addr) pool) ∧
        r.2=freed++ns.map Node.record ∧ ∀ x∉ns.map Node.addr,r.1.mem x=nodes.mem x := by
  induction ns with
  | nil =>
    intro nodes pool freed hb
    exact ⟨hb.pooled,(List.append_nil _).symm,fun _ _ => rfl⟩
  | cons m ns ih =>
    intro nodes pool freed hb
    obtain ⟨hb',hout⟩ := Busy.release hb
    have hrecord : (nodes.mem m.addr).record=m.record :=
      congrArg Node.record (hb.stored m (List.mem_cons_self ..))
    obtain ⟨h1,h2,h3⟩ := ih (freed++[m.record]) hb'
    rw [List.map_cons,List.foldl_cons,Heap.freeNode,hrecord]
    refine ⟨h1,by rw [h2]; simp,fun x hx => ?_⟩
    rw [List.mem_cons,not_or] at hx
    rw [h3 x hx.2,hout x hx.1]

/-- Emptying a table in the heap refines emptying its list. -/
theorem addrHashDeleteAllFree_refines (r : Refines h a) (i : Fin n) :
    let emptied := addrHashDeleteAllFree (a.tables i) a.pool
    Refines (h.addrHashDeleteAllFree i).1 (a.setTable i (emptied.1,emptied.2.1)) ∧
      (h.addrHashDeleteAllFree i).2=emptied.2.2 := by
  intro emptied
  have hbusy : Busy h.nodes a.pool (a.tables i).nodes :=
    ⟨r.nodes,(r.holds i).nodes,fun m hm => r.notMem_free (List.mem_map_of_mem hm),r.addressed i⟩
  obtain ⟨hpooled,hfreed,hout⟩ := foldl_freeNode (a.tables i).nodes [] hbusy
  have hloop := drainTable_eq (fun s => nextOf s.1.mem) Heap.freeNode (s:=(h.nodes,[]))
    (fun s x y hne => congrArg Cell.next (writeLink_of_ne hne _)) (r.holds i) (r.addressed i) rfl
    fun b hb => r.chain_le i hb
  unfold Heap.addrHashDeleteAllFree
  rw [hloop]
  refine ⟨⟨holds_setTable r (holds_empty _) fun x hx => hout x (r.notMem_other hx),hpooled,
    owns_setTable (addrHashDeleteAllFree_owns (r.owns_table i)),r.records,r.ownsRecords⟩,hfreed⟩

/-- The order in which the records in use are listed does not matter. -/
theorem Refines.reorder (r : Refines h a) {inUse : List ℕ} (hp : a.inUse.Perm inUse) :
    Refines h {a with inUse := inUse} :=
  ⟨r.holds,r.nodes,r.owns,r.records,r.ownsRecords.perm hp⟩

/-- Removing a node leaves the records alone. -/
theorem addrHashDeleteNode_records (h : Heap n) (i : Fin n) (target : ℕ) :
    (h.addrHashDeleteNode i target).records=h.records := by
  unfold Heap.addrHashDeleteNode
  dsimp only
  split <;> rfl

/-- Creating a record. It was not in use, all of its bytes are zero, and the records in
use keep theirs. -/
theorem historyCreate_refines (r : Refines h a) :
    let created := h.historyCreate
    created.1∉a.inUse ∧ created.2.records.mem created.1=HistoryType.zero ∧
      (∀ x∈a.inUse,created.2.records.mem x=h.records.mem x) ∧
      created.1=(a.histPool.alloc historyPoolBlock).1 ∧
      Refines created.2 {a with
        histPool := (a.histPool.alloc historyPoolBlock).2
        inUse := created.1::a.inUse} := by
  intro created
  obtain ⟨hitem,hpooled,hmem⟩ := poolAlloc_pooled (by decide : 2≤historyPoolBlock) r.records
  have howns := alloc_owns (by decide : 0<historyPoolBlock) r.ownsRecords
  have hfresh := alloc_fresh (by decide : 0<historyPoolBlock) r.ownsRecords
  have hnodup := howns.nodup_iff.mpr List.nodup_range
  rw [←hitem] at howns hfresh hnodup
  refine ⟨hfresh,Function.update_self ..,fun x hx => ?_,hitem,r.holds,r.nodes,r.owns,?_,howns⟩
  · have hne : x≠created.1 := fun he => hfresh (he ▸ hx)
    exact (Function.update_of_ne hne _ _).trans
      (hmem x (Owns.lt r.ownsRecords (List.mem_append_left _ hx)))
  · refine hpooled.congr fun x hx => Function.update_of_ne ?_ _ _
    rintro rfl
    exact (List.nodup_cons.mp hnodup).1 (List.mem_append_right _ hx)

/-- Freeing a record that was handed out. -/
theorem historyFree_refines (r : Refines h a) {hist : ℕ} (hu : hist∈a.inUse) :
    Refines (h.historyFree hist) {a with
      histPool := a.histPool.release hist
      inUse := a.inUse.erase hist} ∧
      ∀ x≠hist,(h.historyFree hist).records.mem x=h.records.mem x := by
  have hnodup := r.ownsRecords.nodup_iff.mpr List.nodup_range
  have hfree : hist∉a.histPool.free :=
    fun hf => (List.nodup_append.mp hnodup).2.2 hist hu hist hf rfl
  obtain ⟨hpooled,hout⟩ := poolFree_pooled r.records hfree
  exact ⟨⟨r.holds,r.nodes,r.owns,hpooled,
    release_owns (r.ownsRecords.perm (List.perm_cons_erase hu))⟩,hout⟩

/-- A record in use is changed by its user. -/
theorem writeRecord_refines (r : Refines h a) {hist : ℕ} (hu : hist∈a.inUse) (value : HistoryType) :
    Refines (h.writeRecord hist value) a := by
  have hnodup := r.ownsRecords.nodup_iff.mpr List.nodup_range
  refine ⟨r.holds,r.nodes,r.owns,r.records.congr fun x hx => Function.update_of_ne ?_ _ _,
    r.ownsRecords⟩
  rintro rfl
  exact (List.nodup_append.mp hnodup).2.2 x hu x hx rfl

end IftopColor.AddrHeap
