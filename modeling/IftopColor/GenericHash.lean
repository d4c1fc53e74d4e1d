import IftopColor.ChainLog
import IftopColor.GuardedRun

/-!
# The generic hash table in memory

The operations of `hash.c` on a table whose nodes are obtained from the allocator and
given back to it. The allocator may return any address that is not allocated, and
leaves anything in a node that was freed. Beside the memory a run keeps the log of the
insertions that were not deleted; after any operations in any order the pointers
represent that log.
-/

namespace IftopColor.GenericHash

open ChainTable LinkedCells ChainHeap ChainLog GuardedRun

/-- `hash_status_enum`. -/
inductive HashStatus where
  | ok
  | keyNotFound
  deriving DecidableEq

/-- A table and the nodes that were allocated for it. Keys are the values that `copy_key`
copies and `delete_key` frees. -/
structure HashMem (κ ρ : Type) where
  /-- Nodes. -/
  mem : Mem κ ρ
  /-- Member `table`. -/
  table : Heads
  /-- Nodes allocated and not freed. -/
  allocated : List ℕ

variable {κ ρ : Type} (S : HashSpec κ)

namespace HashMem

/-- `hash_initialise`. -/
def init (mem : Mem κ ρ) : HashMem κ ρ := ⟨mem,fun _ => none,[]⟩

/-- `free`, which leaves `junk` in the node. -/
def free (junk : Mem κ ρ) (h : HashMem κ ρ) (node : ℕ) : HashMem κ ρ :=
  {h with mem := Function.update h.mem node (junk node),allocated := h.allocated.erase node}

/-- `hash_insert`, where the allocator returns `node`. -/
def hashInsert (node : ℕ) (key : κ) (record : ρ) (h : HashMem κ ρ) : HashMem κ ρ :=
  let (mem,table) := pushCell S h.mem h.table node key record
  ⟨mem,table,node::h.allocated⟩

/-- `hash_find`; nothing is returned for `HASH_STATUS_KEY_NOT_FOUND`. -/
def hashFind (h : HashMem κ ρ) (key : κ) : Option ρ :=
  (findCell S h.mem h.table h.allocated.length key).map fun node => (h.mem node).record

/-- Unlink and free the first node of a bucket that fits. -/
def deleteFirst (junk : Mem κ ρ) (bucket : ℕ) (p : ℕ→Bool) (h : HashMem κ ρ) :
    HashStatus×HashMem κ ρ :=
  match unlinkCell h.mem h.table h.allocated.length bucket p with
  | none => (.keyNotFound,h)
  | some (node,mem,table) => (.ok,free junk ⟨mem,table,h.allocated⟩ node)

/-- `hash_delete`. -/
def hashDelete (junk : Mem κ ρ) (key : κ) (h : HashMem κ ρ) : HashStatus×HashMem κ ρ :=
  h.deleteFirst junk (S.hash key) fun node => S.compare (h.mem node).key key

/-- `hash_delete_node`, which trusts the cached bucket. -/
def hashDeleteNode (junk : Mem κ ρ) (target : ℕ) (h : HashMem κ ρ) : HashStatus×HashMem κ ρ :=
  h.deleteFirst junk (h.mem target).bucket fun node => node==target

/-- `hash_delete_all`. -/
def hashDeleteAll (junk : Mem κ ρ) (h : HashMem κ ρ) : HashMem κ ρ :=
  {drainTable S (fun h => nextOf h.mem) (free junk) h.table h.allocated.length h with
    table := fun _ => none}

/-- `hash_next_item`. -/
def hashNextItem (h : HashMem κ ρ) (node : Option ℕ) : Option ℕ := nextCell S h.mem h.table node

end HashMem

variable {S}

/-- The memory holds a table of lists with the given log, whose nodes are the nodes that
are allocated. -/
structure Keeps (h : HashMem κ ρ) (t : Table S ρ) (log : List (Node κ ρ)) : Prop where
  /-- Chains. -/
  holds : Holds h.mem h.table t
  /-- The log. -/
  logged : Logged t log
  /-- Nodes allocated. -/
  allocated : h.allocated.Perm (t.nodes.map Node.addr)
  /-- No node is allocated twice. -/
  addressed : t.Addressed

variable {h : HashMem κ ρ} {t : Table S ρ} {log : List (Node κ ρ)} {junk : Mem κ ρ}

/-- At the start the table and the log are empty. -/
theorem keeps_init (mem : Mem κ ρ) : Keeps (HashMem.init mem) (Table.empty : Table S ρ) [] := by
  refine ⟨holds_empty mem,logged_empty,?_,?_⟩
  · simp [HashMem.init]
  · simp [Table.Addressed]

/-- No chain is longer than the number of nodes. -/
theorem Keeps.chain_le (k : Keeps h t log) {b : ℕ} (hb : b<S.size) :
    (t.chain b).length≤h.allocated.length := by
  have hsub : (t.chain b).Sublist t.nodes := by
    rw [nodes_split t hb]
    exact (List.sublist_append_left ..).trans (List.sublist_append_right ..)
  rw [k.allocated.length_eq,List.length_map]
  exact hsub.length_le

/-- The log has the nodes of the table. -/
theorem Keeps.stored (k : Keeps h t log) {m : Node κ ρ} (hm : m∈log) : nodeAt h.mem m.addr=m :=
  k.holds.nodes m (k.logged.perm.symm.subset hm)

/-- An insertion at an address that is not allocated. -/
theorem hashInsert_keeps (k : Keeps h t log) {node : ℕ} (hn : node∉h.allocated) (key : κ)
    (record : ρ) :
    Keeps (h.hashInsert S node key record) (t.push node key record)
      (⟨node,key,record,S.hash key⟩::log) := by
  have hfresh : node∉t.nodes.map Node.addr := fun hm => hn (k.allocated.symm.subset hm)
  have hp := (nodes_push t node key record).map Node.addr
  refine ⟨pushCell_holds k.holds hfresh key record,k.logged.push node key record,?_,?_⟩
  · exact (k.allocated.cons node).trans hp.symm
  · exact hp.symm.nodup_iff.mp (List.nodup_cons.mpr ⟨hfresh,k.addressed⟩)

/-- Deleting the first node of a bucket that fits erases the newest entry that fits. -/
theorem deleteFirst_keeps (junk : Mem κ ρ) (k : Keeps h t log) {b : ℕ} (hb : b<S.size) {p : ℕ→Bool}
    {q : Node κ ρ→Bool} (hpq : ∀ m∈log,p m.addr=q m) (hq : ∀ m∈log,q m=true→m.bucket=b) :
    match log.find? q with
    | none => h.deleteFirst junk b p=(.keyNotFound,h)
    | some _ => (h.deleteFirst junk b p).1=.ok ∧
        Keeps (h.deleteFirst junk b p).2 (t.unlink b q) (log.eraseP q) := by
  have hmatch : Matches t b p q := fun m hm => hpq m (k.logged.mem_chain_iff.mp hm).1
  have hunlink := unlinkCell_eq k.holds k.addressed hb hmatch (k.chain_le hb)
  rw [k.logged.find_bucket hq] at hunlink
  unfold HashMem.deleteFirst
  cases hf : log.find? q with
  | none =>
    rw [hf] at hunlink
    rw [hunlink]
  | some m =>
    rw [hf] at hunlink
    obtain ⟨mem,table,hunlink,hholds,-⟩ := hunlink
    have hperm := (k.logged.unlink_perm hq hf).map Node.addr
    have hnodup := hperm.nodup_iff.mp k.addressed
    obtain ⟨hm,hrest⟩ := List.nodup_cons.mp hnodup
    rw [hunlink]
    refine ⟨rfl,⟨hholds.congr fun x hx => ?_,k.logged.unlink hq,?_,hrest⟩⟩
    · refine Function.update_of_ne (fun he => hm ?_) _ _
      rw [←he]
      exact List.mem_map_of_mem hx
    · have he := (k.allocated.trans hperm).erase m.addr
      rw [List.map_cons,List.erase_cons_head] at he
      exact he

/-- Deleting all nodes leaves the heap of an empty table with an empty log. -/
theorem hashDeleteAll_keeps (k : Keeps h t log) :
    Keeps (h.hashDeleteAll S junk) (Table.empty : Table S ρ) [] := by
  have hloop := drainTable_eq (fun h => nextOf h.mem) (HashMem.free junk) (s:=h)
    (fun h x y hne => congrArg Cell.next (Function.update_of_ne hne _ _)) k.holds k.addressed rfl
    fun b hb => k.chain_le hb
  have hall : ∀ (xs : List ℕ) (h : HashMem κ ρ),h.allocated.Perm xs→
      (xs.foldl (HashMem.free junk) h).allocated=[] := by
    intro xs
    induction xs with
    | nil => exact fun h hp => hp.eq_nil
    | cons x xs ih =>
      intro h hp
      refine ih _ ?_
      have he := hp.erase x
      rwa [List.erase_cons_head] at he
  refine ⟨holds_empty _,logged_empty,?_,?_⟩
  · rw [HashMem.hashDeleteAll,hloop,hall _ h k.allocated,nodes_empty]
    rfl
  · simp [Table.Addressed]

/-- `hash_find` returns the record of the node that a search of the table finds. -/
theorem hashFind_eq (k : Keeps h t log) (key : κ) :
    h.hashFind S key=(t.find key).map Node.record :=
  findCell_record k.holds key (k.chain_le (S.hash_lt key))

/-- Memory and log. -/
structure State (κ ρ : Type) where
  /-- Table and allocator. -/
  heap : HashMem κ ρ
  /-- Insertions that were not deleted, newest first. -/
  log : List (Node κ ρ)

/-- Operations that change a table, with what the allocator does. -/
inductive Op (κ ρ : Type) where
  | insert (node : ℕ) (key : κ) (record : ρ)
  | delete (junk : Mem κ ρ) (key : κ)
  | deleteNode (junk : Mem κ ρ) (target : ℕ)
  | deleteAll (junk : Mem κ ρ)

variable (S) in
/-- One operation. -/
def step (s : State κ ρ) : Op κ ρ→State κ ρ
  | .insert node key record =>
    ⟨s.heap.hashInsert S node key record,⟨node,key,record,S.hash key⟩::s.log⟩
  | .delete junk key =>
    ⟨(s.heap.hashDelete S junk key).2,s.log.eraseP fun m => S.compare m.key key⟩
  | .deleteNode junk target =>
    ⟨(s.heap.hashDeleteNode junk target).2,s.log.eraseP fun m => m.addr==target⟩
  | .deleteAll junk => ⟨s.heap.hashDeleteAll S junk,[]⟩

/-- The allocator returns an address that is not allocated; a node to be deleted is. -/
def Called (s : State κ ρ) : Op κ ρ→Prop
  | .insert node _ _ => node∉s.heap.allocated
  | .deleteNode _ target => target∈s.heap.allocated
  | _ => True

variable (S) in
/-- States of runs from an empty table. -/
abbrev Reached (mem : Mem κ ρ) : State κ ρ→Prop :=
  Run (fun s op => some (step S s op)) Called ⟨HashMem.init mem,[]⟩

/-- A deletion takes out the newest entry that fits and reports it, or changes nothing. -/
def Deletes (q : Node κ ρ→Bool) (result : HashStatus×HashMem κ ρ) (s : State κ ρ)
    (log : List (Node κ ρ)) : Prop :=
  (result.1=.ok ∧ RemovesFirst q s.log log) ∨
    (result.1=.keyNotFound ∧ (∀ m∈s.log,q m=false) ∧ log=s.log ∧ result.2=s.heap)

/-- Deleting the first node of a bucket that fits, as one step. -/
theorem deleteFirst_step {s : State κ ρ} (k : Keeps s.heap t s.log) {b : ℕ} (hb : b<S.size)
    {p : ℕ→Bool} {q : Node κ ρ→Bool} (hpq : ∀ m∈s.log,p m.addr=q m)
    (hq : ∀ m∈s.log,q m=true→m.bucket=b) :
    let result := s.heap.deleteFirst junk b p
    (∃ t : Table S ρ,Keeps result.2 t (s.log.eraseP q)) ∧ Deletes q result s (s.log.eraseP q) := by
  intro result
  have hd := deleteFirst_keeps junk k hb hpq hq
  rcases eraseP_cases q s.log with ⟨m,hf,hr⟩|⟨hf,hno,he⟩
  · rw [hf] at hd
    exact ⟨⟨_,hd.2⟩,.inl ⟨hd.1,hr⟩⟩
  · rw [hf] at hd
    have hresult : result=(.keyNotFound,s.heap) := hd
    rw [hresult,he]
    exact ⟨⟨t,k⟩,.inr ⟨rfl,hno,rfl,rfl⟩⟩

/-- `hash_delete` takes the newest node of its key out of the table and the log. -/
theorem hashDelete_step {s : State κ ρ} (k : Keeps s.heap t s.log) (key : κ) :
    let result := s.heap.hashDelete S junk key
    (∃ t : Table S ρ,Keeps result.2 t (s.log.eraseP fun m => S.compare m.key key)) ∧
      Deletes (fun m => S.compare m.key key) result s
        (s.log.eraseP fun m => S.compare m.key key) := by
  refine deleteFirst_step k (S.hash_lt key) (fun m hm => ?_) fun m hm hc =>
    k.logged.bucket_of_compare hm hc
  have hkey : (s.heap.mem m.addr).key=m.key := congrArg Node.key (k.stored hm)
  rw [hkey]

/-- `hash_delete_node` takes its node out of the table and the log. -/
theorem hashDeleteNode_step {s : State κ ρ} (k : Keeps s.heap t s.log) {target : ℕ}
    (ht : target∈s.heap.allocated) :
    let result := s.heap.hashDeleteNode junk target
    (∃ t : Table S ρ,Keeps result.2 t (s.log.eraseP fun m => m.addr==target)) ∧
      Deletes (fun m => m.addr==target) result s (s.log.eraseP fun m => m.addr==target) := by
  obtain ⟨m,hm,rfl⟩ := List.mem_map.mp (k.allocated.subset ht)
  have hbucket : (s.heap.mem m.addr).bucket=m.bucket :=
    congrArg Node.bucket (k.holds.nodes m hm)
  refine deleteFirst_step k (by rw [hbucket]; exact (mem_chain hm).1) (fun _ _ => rfl) ?_
  intro x hx he
  have hx' : (s.heap.mem x.addr).bucket=x.bucket := congrArg Node.bucket (k.stored hx)
  rw [←hx',of_decide_eq_true he]

variable (S) in
/-- What is said of a deletion. -/
def DeletesOne (s : State κ ρ) : Op κ ρ→Prop
  | .delete junk key => Deletes (fun m => S.compare m.key key) (s.heap.hashDelete S junk key) s
      (step S s (.delete junk key)).log
  | .deleteNode junk target => Deletes (fun m => m.addr==target)
      (s.heap.hashDeleteNode junk target) s (step S s (.deleteNode junk target)).log
  | _ => True

/-- One operation keeps the table and its log together. -/
theorem step_keeps {s : State κ ρ} {op : Op κ ρ} (k : Keeps s.heap t s.log) (hc : Called s op) :
    (∃ t : Table S ρ,Keeps (step S s op).heap t (step S s op).log) ∧ DeletesOne S s op := by
  cases op with
  | insert node key record => exact ⟨⟨_,hashInsert_keeps k hc key record⟩,trivial⟩
  | delete junk key => exact hashDelete_step k key
  | deleteNode junk target => exact hashDeleteNode_step k hc
  | deleteAll junk => exact ⟨⟨_,hashDeleteAll_keeps k⟩,trivial⟩

variable (S) in
/-- The memory holds some table with the log. -/
def Kept (s : State κ ρ) : Prop := ∃ t : Table S ρ,Keeps s.heap t s.log

/-- In every run the memory holds a table with the log of the run. -/
theorem Reached.kept {mem : Mem κ ρ} {s : State κ ρ} (h : Reached S mem s) : Kept S s := by
  refine h.invariant ⟨_,keeps_init mem⟩ ?_
  rintro s op s' ⟨t,k⟩ hc hs
  obtain rfl : step S s op=s' := by simpa using hs
  exact (step_keeps k hc).1

/-- The pointers of a reached state represent its log. -/
theorem Keeps.represents (k : Keeps h t log) :
    Represents S h.mem h.table (h.hashNextItem S) (h.hashFind S) log :=
  k.logged.represents k.holds k.addressed (hashFind_eq k)

end IftopColor.GenericHash
