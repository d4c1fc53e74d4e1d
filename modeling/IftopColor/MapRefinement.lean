import IftopColor.GenericHash
import IftopColor.PoolAliasing

/-!
# Hash tables refine finite maps

An address table is used through its own operations, which take nodes from the shared
pool, and through the iterator and the lookup of the generic table. Beside the memory
a run keeps, for each table, the log of the insertions that were not deleted. In every
run the pointers of every table represent its log, whichever lookup is asked, and a
deletion takes one entry out of one log. The generic table does the same with nodes
from the allocator.
-/

namespace IftopColor.MapRefinement

open ChainTable BlockPool AddrHash History LinkedCells ChainHeap PoolHeap AddrHeap ChainLog
open PoolAliasing GuardedRun

variable {n : ℕ}

/-- The loop of `addr_hash_find` finds the record of the first node in the chain with the key. -/
theorem findLoop_eq {mem : ℕ→NodeCell} {key : AddrPair} (ns : List (Node AddrPair ℕ)) :
    ∀ {start : Option ℕ} {fuel : ℕ},Chain (nextOf mem) start (ns.map Node.addr)→
      (∀ m∈ns,nodeAt mem m.addr=m)→ns.length≤fuel→
      Heap.findLoop mem key fuel start=
        (ns.find? fun m => addrCompare m.key key).map Node.record := by
  induction ns with
  | nil =>
    intro start fuel hc _ _
    obtain rfl : start=none := hc
    cases fuel <;> rfl
  | cons m ns ih =>
    intro start fuel hc hnode hfuel
    obtain ⟨rfl,hc⟩ := hc
    obtain ⟨fuel,rfl⟩ : ∃ k,fuel=k+1 := ⟨fuel-1,by rw [List.length_cons] at hfuel; omega⟩
    have hm := hnode m (List.mem_cons_self ..)
    have hkey : (mem m.addr).key=m.key := congrArg Node.key hm
    have hrecord : (mem m.addr).record=m.record := congrArg Node.record hm
    rw [Heap.findLoop,hkey,hrecord,List.find?_cons]
    cases addrCompare m.key key with
    | true => rfl
    | false =>
      exact ih hc (fun x hx => hnode x (List.mem_cons_of_mem _ hx)) (Nat.le_of_succ_le_succ hfuel)

variable {h : Heap n} {a : Lists n}

/-- `addr_hash_find` on pointers is the lookup in the table. -/
theorem addrHashFind_eq (r : Refines h a) (i : Fin n) (key : AddrPair) :
    h.addrHashFind i key=((a.tables i).find key).map Node.record := by
  have hb := addrHashBucket_lt key
  exact findLoop_eq _ ((r.holds i).chains _ hb)
    (fun m hm => (r.holds i).nodes m (mem_nodes_of_chain hb hm)) (r.chain_le i hb)

/-- `hash_find` on pointers is the lookup in the table. -/
theorem hashFind_eq (r : Refines h a) (i : Fin n) (key : AddrPair) :
    h.hashFind i key=((a.tables i).find key).map Node.record :=
  findCell_record (r.holds i) key (r.chain_le i (addrHashBucket_lt key))

/-- Memory and the log of every table. -/
structure LogState (n : ℕ) where
  /-- Tables and pools. -/
  state : State n
  /-- Insertions that were not deleted, newest first. -/
  logs : Fin n→List (Node AddrPair ℕ)

/-- The logs after an operation. -/
def logStep (s : LogState n) : Op n→Fin n→List (Node AddrPair ℕ)
  | .insert i key record =>
    let node := (poolAlloc nodeLink poolBlockSize s.state.heap.nodes).1
    Function.update s.logs i (⟨node,key,record,addrHashBucket key⟩::s.logs i)
  | .deleteNode i target =>
    Function.update s.logs i ((s.logs i).eraseP fun m => m.addr==target)
  | .deleteAllFree i => Function.update s.logs i []
  | _ => s.logs

/-- One operation with the logs. -/
def loggedStep (s : LogState n) (op : Op n) : LogState n := ⟨step s.state op,logStep s op⟩

/-- States of runs from the start of the program. -/
abbrev LogReached (node : ℕ→NodeCell) (record : ℕ→HistoryType) : LogState n→Prop :=
  Run (fun s op => some (loggedStep s op)) (fun s op => Called s.state op)
    ⟨State.init node record,fun _ => []⟩

/-- The memory is what some lists say, and they have the logs. -/
structure Tracks (s : LogState n) (a : Lists n) : Prop where
  /-- Memory. -/
  refines : Refines s.state.heap a
  /-- Records handed out. -/
  inUse : a.inUse=s.state.inUse
  /-- Logs. -/
  logged : ∀ i,Logged (a.tables i) (s.logs i)

/-- A node of the log of a table is in its cell. -/
theorem Tracks.stored {s : LogState n} (t : Tracks s a) {i : Fin n} {m : Node AddrPair ℕ}
    (hm : m∈s.logs i) : nodeAt s.state.heap.nodes.mem m.addr=m :=
  (t.refines.holds i).nodes m ((t.logged i).perm.symm.subset hm)

/-- The removal of a node is the removal of its entry; an address without an entry is not
found in the bucket it has. -/
theorem logged_deleteNode {s : LogState n} (t : Tracks s a) (i : Fin n) (target : ℕ) :
    Logged (addrHashDeleteNode (a.tables i) a.pool (nodeAt s.state.heap.nodes.mem target)).1
      ((s.logs i).eraseP fun m => m.addr==target) := by
  have hq : ∀ m∈s.logs i,(m.addr==target)=true→
      m.bucket=(nodeAt s.state.heap.nodes.mem target).bucket := by
    intro m hm he
    rw [←beq_iff_eq.mp he,t.stored hm]
  have hfind := (t.logged i).find_bucket hq
  unfold addrHashDeleteNode
  dsimp only [nodeAt] at hfind ⊢
  rw [hfind]
  rcases eraseP_cases (fun m => m.addr==target) (s.logs i) with ⟨m,hf,-⟩|⟨hf,-,he⟩
  · rw [hf]
    exact (t.logged i).unlink hq
  · rw [hf,he]
    exact t.logged i

/-- One operation keeps memory and logs together. -/
theorem loggedStep_tracks {s : LogState n} (t : Tracks s a) {op : Op n} (hc : Called s.state op) :
    Tracks (loggedStep s op) (listStep s.state.heap a op) := by
  obtain ⟨hr,hu⟩ := step_refines t.refines t.inUse hc
  refine ⟨hr,hu,fun j => ?_⟩
  have hset : ∀ {i : Fin n} {result : AddrTable×Pool} {log : List (Node AddrPair ℕ)},
      Logged result.1 log→
      Logged ((a.setTable i result).tables j) (Function.update s.logs i log j) := by
    intro i result log hl
    by_cases hj : j=i
    · subst hj
      simpa only [Lists.setTable,Function.update_self] using hl
    · simpa only [Lists.setTable,Function.update_of_ne hj] using t.logged j
  cases op with
  | insert i key record =>
    refine hset ?_
    have hnode := (poolAlloc_pooled (by decide : 2≤poolBlockSize) t.refines.nodes).1
    rw [hnode]
    exact (t.logged i).push _ key record
  | deleteNode i target => exact hset (logged_deleteNode t i target)
  | deleteAllFree i => exact hset logged_empty
  | _ => exact t.logged j

/-- Memory and logs belong together. -/
def Tracked (s : LogState n) : Prop := ∃ a,Tracks s a

/-- In every run memory and logs belong together. -/
theorem LogReached.tracked {node : ℕ→NodeCell} {record : ℕ→HistoryType} {s : LogState n}
    (h : LogReached node record s) : Tracked s := by
  refine h.invariant ⟨_,refines_init node record,rfl,fun _ => logged_empty⟩ ?_
  rintro s op s' ⟨a,t⟩ hc hs
  obtain rfl : loggedStep s op=s' := by simpa using hs
  exact ⟨_,loggedStep_tracks t hc⟩

/-- A deletion takes one entry out of the log of its table, or finds none and changes
nothing. -/
def DeletesOne (s : LogState n) : Op n→Prop
  | .deleteNode i target =>
    RemovesFirst (fun m => m.addr==target) (s.logs i) (logStep s (.deleteNode i target) i) ∨
      ((∀ m∈s.logs i,(m.addr==target)=false) ∧ loggedStep s (.deleteNode i target)=s)
  | _ => True

/-- What deletions do in a reached state. -/
theorem deletesOne {s : LogState n} (t : Tracks s a) {op : Op n} (hc : Called s.state op) :
    DeletesOne s op := by
  cases op with
  | deleteNode i target =>
    rw [DeletesOne,loggedStep,logStep,Function.update_self]
    rcases eraseP_cases (fun m => m.addr==target) (s.logs i) with ⟨m,-,hr⟩|⟨hf,hno,he⟩
    · exact .inl hr
    · refine .inr ⟨hno,?_⟩
      have hq : ∀ m∈s.logs i,(m.addr==target)=true→
          m.bucket=(s.state.heap.nodes.mem target).bucket := by
        intro m hm hm'
        rw [hno m hm] at hm'
        cases hm'
      have habsent := addrHashDeleteNode_absent t.refines hc
        (((t.logged i).find_bucket hq).trans hf)
      rw [he,Function.update_eq_self,step,habsent]
  | _ => trivial

/-- In every run of any number of address tables on one pool, and in every run of a
generic table, the pointers of the table represent the log of the insertions that were
not deleted; both lookups of an address table agree, and a deletion takes out the one
entry it is for. -/
theorem tables_refine_maps {node : ℕ→NodeCell} {record : ℕ→HistoryType} {s : LogState n}
    (ha : LogReached node record s) {κ ρ : Type} {S : HashSpec κ} {mem : Mem κ ρ}
    {g : GenericHash.State κ ρ} (hg : GenericHash.Reached S mem g) :
    ((∀ i,Represents addrHashSpec s.state.heap.nodes.mem (s.state.heap.tables i)
        (fun node => s.state.heap.hashNextItem i node) (fun key => s.state.heap.addrHashFind i key)
        (s.logs i)) ∧
      (∀ i key,s.state.heap.hashFind i key=s.state.heap.addrHashFind i key) ∧
      ∀ op,Called s.state op→DeletesOne s op) ∧
    Represents S g.heap.mem g.heap.table (g.heap.hashNextItem S) (g.heap.hashFind S) g.log ∧
      ∀ op,GenericHash.Called g op→GenericHash.DeletesOne S g op := by
  obtain ⟨a,t⟩ := ha.tracked
  obtain ⟨table,k⟩ := hg.kept
  refine ⟨⟨fun i => ?_,fun i key => ?_,fun op hc => deletesOne t hc⟩,k.represents,
    fun op hc => (GenericHash.step_keeps k hc).2⟩
  · exact (t.logged i).represents (t.refines.holds i) (t.refines.addressed i)
      (addrHashFind_eq t.refines i)
  · rw [hashFind_eq t.refines,addrHashFind_eq t.refines]

/-- An address table with two nodes of one key. -/
def twoNodes : LogState 1 :=
  let s : LogState 1 :=
    ⟨State.init (fun _ => ⟨none,AddrPair.zero,0,0⟩) fun _ => HistoryType.zero,fun _ => []⟩
  loggedStep (loggedStep s (.insert 0 AddrPair.zero 7)) (.insert 0 AddrPair.zero 8)

/-- Numbers by parity. -/
def paritySpec : HashSpec ℕ where
  size := 2
  hash k := k%2
  compare a b := a==b
  hash_lt k := Nat.mod_lt k (by decide)
  hash_eq a b h := by rw [beq_iff_eq.mp h]

/-- A generic table with two nodes in one chain. -/
def twoOdd : GenericHash.State ℕ ℕ :=
  let s : GenericHash.State ℕ ℕ := ⟨.init fun _ => ⟨none,0,0,0⟩,[]⟩
  GenericHash.step paritySpec (GenericHash.step paritySpec s (.insert 10 3 30)) (.insert 20 5 50)

/-- The newest of two nodes with one key is found, and the older of two nodes in one chain. -/
theorem tables_refine_maps_two :
    twoNodes.state.heap.addrHashFind 0 AddrPair.zero=some 8 ∧
      twoOdd.heap.hashFind paritySpec 3=some 30 := by
  have ha : LogReached (fun _ => ⟨none,AddrPair.zero,0,0⟩) (fun _ => HistoryType.zero) twoNodes :=
    .step (a:=.insert 0 AddrPair.zero 8) (.step (a:=.insert 0 AddrPair.zero 7) .init trivial rfl)
      trivial rfl
  have hg : GenericHash.Reached paritySpec (fun _ => ⟨none,0,0,0⟩) twoOdd :=
    .step (a:=.insert 20 5 50) (.step (a:=.insert 10 3 30) .init (List.not_mem_nil) rfl)
      (by decide : 20∉[10]) rfl
  obtain ⟨⟨hrep,-⟩,hgen,-⟩ := tables_refine_maps ha hg
  exact ⟨(hrep 0).find_eq AddrPair.zero,hgen.find_eq 3⟩

end IftopColor.MapRefinement
