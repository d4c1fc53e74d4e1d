import IftopColor.ChainTable
import IftopColor.LinkedCells

/-!
# Chained tables in memory

The nodes of a chained table are cells of a memory, and each bucket has a pointer
to the first cell of its chain. Insertion, search, removal and iteration follow and
change pointers. A memory holds a table of lists when every chain of pointers meets
the nodes of the corresponding list; each operation on pointers is then the
operation of the same name on the lists, and cells outside the table do not matter.
-/

namespace IftopColor.ChainHeap

open ChainTable LinkedCells

/-- A node in memory. -/
structure Cell (κ ρ : Type) where
  /-- Next node of the chain. -/
  next : Option ℕ
  /-- Key. -/
  key : κ
  /-- User data. -/
  record : ρ
  /-- Cached bucket index. -/
  bucket : ℕ

/-- Cells by address. -/
abbrev Mem (κ ρ : Type) := ℕ→Cell κ ρ

/-- First cell of every bucket. -/
abbrev Heads := ℕ→Option ℕ

variable {κ ρ : Type} {S : HashSpec κ}

/-- The link of a cell. -/
def nextOf (mem : Mem κ ρ) (a : ℕ) : Option ℕ := (mem a).next

/-- A cell with its address. -/
def nodeAt (mem : Mem κ ρ) (a : ℕ) : Node κ ρ := ⟨a,(mem a).key,(mem a).record,(mem a).bucket⟩

/-- Fill a cell and put it in front of the chain of its key. -/
def pushCell (S : HashSpec κ) (mem : Mem κ ρ) (heads : Heads) (a : ℕ) (key : κ) (record : ρ) :
    Mem κ ρ×Heads :=
  let bucket := S.hash key
  (Function.update mem a ⟨heads bucket,key,record,bucket⟩,Function.update heads bucket (some a))

/-- Search a bucket: the cell before the first one that fits, and that cell. -/
def searchBucket (mem : Mem κ ρ) (heads : Heads) (fuel bucket : ℕ) (p : ℕ→Bool) :
    Option ℕ×Option ℕ :=
  search (nextOf mem) p fuel none (heads bucket)

/-- Search the bucket of a key for the key. -/
def findCell (S : HashSpec κ) (mem : Mem κ ρ) (heads : Heads) (fuel : ℕ) (key : κ) : Option ℕ :=
  (searchBucket mem heads fuel (S.hash key) fun a => S.compare (mem a).key key).2

/-- Let the cell `prev`, or the bucket when there is none, point to `v`. -/
def setLink (mem : Mem κ ρ) (heads : Heads) (bucket : ℕ) (prev v : Option ℕ) : Mem κ ρ×Heads :=
  match prev with
  | none => (mem,Function.update heads bucket v)
  | some p => (Function.update mem p {mem p with next := v},heads)

/-- Unlink the first cell of a bucket that fits: the cell, and memory and buckets
afterwards. -/
def unlinkCell (mem : Mem κ ρ) (heads : Heads) (fuel bucket : ℕ) (p : ℕ→Bool) :
    Option (ℕ×Mem κ ρ×Heads) :=
  match searchBucket mem heads fuel bucket p with
  | (_,none) => none
  | (prev,some node) => some (node,setLink mem heads bucket prev (mem node).next)

/-- First cell of the `count` buckets from bucket `i` on. -/
def firstCell (heads : Heads) : ℕ→ℕ→Option ℕ
  | 0,_ => none
  | count+1,i =>
    match heads i with
    | none => firstCell heads count (i+1)
    | some a => some a

/-- Successor of a cell in a walk over the buckets; no cell starts the walk. -/
def nextCell (S : HashSpec κ) (mem : Mem κ ρ) (heads : Heads) : Option ℕ→Option ℕ
  | none => firstCell heads S.size 0
  | some a =>
    match (mem a).next with
    | some b => some b
    | none => firstCell heads (S.size-((mem a).bucket+1)) ((mem a).bucket+1)

/-- The loops that release every node of every bucket; `links` reads a link and `release`
releases a node. -/
def drainTable {σ : Type} (S : HashSpec κ) (links : σ→ℕ→Option ℕ) (release : σ→ℕ→σ) (heads : Heads)
    (fuel : ℕ) (s : σ) : σ :=
  (List.range S.size).foldl (fun s b => drain links release fuel (heads b) s) s

/-- Memory and buckets hold the chains of a table. -/
structure Holds (mem : Mem κ ρ) (heads : Heads) (t : Table S ρ) : Prop where
  /-- Every chain of pointers meets the nodes of its list. -/
  chains : ∀ b<S.size,Chain (nextOf mem) (heads b) ((t.chain b).map Node.addr)
  /-- Every node is in its cell. -/
  nodes : ∀ n∈t.nodes,nodeAt mem n.addr=n

variable {mem mem' : Mem κ ρ} {heads : Heads} {t : Table S ρ} {b fuel : ℕ}

/-- Nodes of a chain are nodes of the table. -/
theorem mem_nodes_of_chain (hb : b<S.size) {n : Node κ ρ} (hn : n∈t.chain b) : n∈t.nodes := by
  rw [nodes_split t hb]
  exact List.mem_append_right _ (List.mem_append_left _ hn)

/-- Cells outside the table do not matter. -/
theorem Holds.congr (h : Holds mem heads t) (he : ∀ n∈t.nodes,mem' n.addr=mem n.addr) :
    Holds mem' heads t := by
  refine ⟨fun b hb => Seg.congr (h.chains b hb) fun a ha => ?_,fun n hn => ?_⟩
  · obtain ⟨n,hn,rfl⟩ := List.mem_map.mp ha
    simp only [nextOf,he n (mem_nodes_of_chain hb hn)]
  · rw [nodeAt,he n hn]
    exact h.nodes n hn

/-- Empty buckets hold the empty table. -/
theorem holds_empty (mem : Mem κ ρ) : Holds mem (fun _ => none) (Table.empty : Table S ρ) :=
  ⟨fun b _ => rfl,by simp⟩

/-- Inserting a cell that is not in the table. -/
theorem pushCell_holds (h : Holds mem heads t) {a : ℕ} (ha : a∉t.nodes.map Node.addr) (key : κ)
    (record : ρ) :
    Holds (pushCell S mem heads a key record).1 (pushCell S mem heads a key record).2
      (t.push a key record) := by
  have hmem : ∀ n∈t.nodes,n.addr≠a := by
    rintro n hn rfl
    exact ha (List.mem_map_of_mem hn)
  have hold : Holds (pushCell S mem heads a key record).1 heads t :=
    h.congr fun n hn => Function.update_of_ne (hmem n hn) _ _
  refine ⟨fun b hb => ?_,fun n hn => ?_⟩
  · by_cases he : b=S.hash key
    · subst he
      simp only [Table.push,Table.setChain,pushCell,Function.update_self,List.map_cons,seg_cons,
        nextOf,true_and]
      exact hold.chains _ hb
    · simp only [Table.push,Table.setChain,Function.update_of_ne he,pushCell]
      exact hold.chains b hb
  · rcases List.mem_cons.mp ((nodes_push t a key record).subset hn) with rfl|hn
    · simp only [nodeAt,pushCell,Function.update_self]
    · exact hold.nodes n hn

/-- A test of cells agrees with a test of nodes on a bucket. -/
def Matches (t : Table S ρ) (b : ℕ) (p : ℕ→Bool) (q : Node κ ρ→Bool) : Prop :=
  ∀ n∈t.chain b,p n.addr=q n

variable {p : ℕ→Bool} {q : Node κ ρ→Bool}

/-- A search stops behind the nodes that do not fit. -/
theorem searchBucket_eq (h : Holds mem heads t) (hb : b<S.size) (hpq : Matches t b p q)
    (hf : (t.chain b).length≤fuel) {xs ys : List (Node κ ρ)} (hs : t.chain b=xs++ys)
    (hx : ∀ n∈xs,q n=false) (hy : ∀ n,ys.head?=some n→q n=true) :
    searchBucket mem heads fuel b p=((xs.map Node.addr).getLast?,(ys.map Node.addr).head?) := by
  have hc := h.chains b hb
  rw [hs,List.map_append] at hc
  rw [searchBucket,search_eq hc,Option.or_none]
  · intro a ha
    obtain ⟨n,hn,rfl⟩ := List.mem_map.mp ha
    rw [hpq n (by rw [hs]; exact List.mem_append_left _ hn),hx n hn]
  · intro a ha
    rw [List.head?_map,Option.map_eq_some_iff] at ha
    obtain ⟨n,hn,rfl⟩ := ha
    rw [hpq n (by rw [hs]; exact List.mem_append_right _ (List.mem_of_head? hn)),hy n hn]
  · rwa [←List.map_append,←hs,List.length_map]

/-- A list without a fit, or with a first one. -/
theorem find_cases (q : Node κ ρ→Bool) (ns : List (Node κ ρ)) :
    (ns.find? q=none ∧ ∀ n∈ns,q n=false) ∨
      ∃ xs n ys,ns=xs++n::ys ∧ (∀ m∈xs,q m=false) ∧ q n=true ∧ ns.find? q=some n := by
  cases hf : ns.find? q with
  | none => exact .inl ⟨rfl,fun n hn => by simpa using List.find?_eq_none.mp hf n hn⟩
  | some n =>
    obtain ⟨hq,xs,ys,hs,hx⟩ := List.find?_eq_some_iff_append.mp hf
    exact .inr ⟨xs,n,ys,hs,fun m hm => by simpa using hx m hm,hq,rfl⟩

/-- The search for a key finds the cell of the node that the table finds. -/
theorem findCell_eq (h : Holds mem heads t) (key : κ)
    (hf : (t.chain (S.hash key)).length≤fuel) :
    findCell S mem heads fuel key=(t.find key).map Node.addr := by
  have hb := S.hash_lt key
  have hpq : Matches t (S.hash key) (fun a => S.compare (mem a).key key)
      fun n => S.compare n.key key := by
    intro n hn
    have he : (mem n.addr).key=n.key :=
      congrArg Node.key (h.nodes n (mem_nodes_of_chain hb hn))
    simp only [he]
  unfold findCell Table.find
  rcases find_cases (fun n => S.compare n.key key) (t.chain (S.hash key)) with ⟨he,hx⟩|
    ⟨xs,n,ys,hs,hx,hq,he⟩
  · rw [searchBucket_eq h hb hpq hf (List.append_nil _).symm hx (by simp),he]
    rfl
  · rw [searchBucket_eq h hb hpq hf hs hx (by simpa using hq),he]
    rfl

/-- The record in the cell that is found is that of the node the table finds. -/
theorem findCell_record (h : Holds mem heads t) (key : κ)
    (hf : (t.chain (S.hash key)).length≤fuel) :
    (findCell S mem heads fuel key).map (fun a => (mem a).record)=
      (t.find key).map Node.record := by
  rw [findCell_eq h key hf,Option.map_map]
  cases he : t.find key with
  | none => rfl
  | some n =>
    have hn : n∈t.nodes := by
      rw [find_eq] at he
      exact List.mem_of_find?_eq_some he
    exact congrArg some (congrArg Node.record (h.nodes n hn))

/-- The links after one link was changed. -/
theorem nextOf_setLink (mem : Mem κ ρ) (heads : Heads) (b : ℕ) (prev v : Option ℕ) :
    (setLink mem heads b prev v).2 b=(relink prev v (heads b) (nextOf mem)).1 ∧
      nextOf (setLink mem heads b prev v).1=(relink prev v (heads b) (nextOf mem)).2 := by
  cases prev with
  | none => exact ⟨Function.update_self ..,rfl⟩
  | some p =>
    refine ⟨rfl,funext fun a => ?_⟩
    simp only [setLink,relink,nextOf]
    by_cases ha : a=p
    · subst ha
      simp
    · rw [Function.update_of_ne ha,Function.update_of_ne ha]
      rfl

/-- Other buckets keep their first cell. -/
theorem heads_setLink {b' : ℕ} (hne : b'≠b) (prev v : Option ℕ) :
    (setLink mem heads b prev v).2 b'=heads b' := by
  cases prev with
  | none => exact Function.update_of_ne hne _ _
  | some p => rfl

/-- Cells keep everything but their link. -/
theorem nodeAt_setLink (prev v : Option ℕ) (a : ℕ) :
    nodeAt (setLink mem heads b prev v).1 a=nodeAt mem a := by
  cases prev with
  | none => rfl
  | some p =>
    simp only [nodeAt,setLink]
    by_cases ha : a=p
    · subst ha
      simp
    · rw [Function.update_of_ne ha]

/-- Cells other than the one before the link stay as they are. -/
theorem setLink_of_ne {prev v : Option ℕ} {a : ℕ} (h : prev≠some a) :
    (setLink mem heads b prev v).1 a=mem a := by
  cases prev with
  | none => rfl
  | some p => exact Function.update_of_ne (fun he => h (by rw [he])) _ _

/-- Addresses of different buckets are different. -/
theorem addr_ne_of_bucket_ne (ha : t.Addressed) {n m : Node κ ρ} (hn : n∈t.nodes) (hm : m∈t.nodes)
    (hne : n.bucket≠m.bucket) : n.addr≠m.addr := by
  intro he
  exact hne (congrArg Node.bucket (List.inj_on_of_nodup_map ha hn hm he))

variable {xs ys : List (Node κ ρ)} {n : Node κ ρ}

/-- The bucket of an unlinked node loses it. -/
theorem chain_unlink (hs : t.chain b=xs++n::ys) (hx : ∀ m∈xs,q m=false) (hq : q n=true) :
    (t.unlink b q).chain b=xs++ys := by
  simp only [Table.unlink,Table.setChain,Function.update_self]
  rw [hs,List.eraseP_append_right _ (fun m hm => by simp [hx m hm]),List.eraseP_cons_of_pos hq]

/-- The cell before a link of the bucket is the cell of a node of the bucket. -/
theorem getLast?_mem (hb : b<S.size) (hs : t.chain b=xs++n::ys) {a : ℕ}
    (hl : (xs.map Node.addr).getLast?=some a) : ∃ m∈xs,m.addr=a ∧ m∈t.nodes ∧ m.bucket=b := by
  obtain ⟨m,hm,he⟩ := List.mem_map.mp (List.mem_of_getLast? hl)
  have hc : m∈t.chain b := by
    rw [hs]
    exact List.mem_append_left _ hm
  exact ⟨m,hm,he,mem_nodes_of_chain hb hc,(t.placed b m hc).1⟩

/-- Changing the link behind `xs` takes the next cell out of its chain. -/
theorem setLink_chain (h : Holds mem heads t) (hb : b<S.size) (hs : t.chain b=xs++n::ys) :
    let linked := setLink mem heads b (xs.map Node.addr).getLast? (mem n.addr).next
    Chain (nextOf linked.1) (linked.2 b) ((xs++ys).map Node.addr) := by
  intro linked
  have hold := h.chains b hb
  rw [hs,List.map_append,List.map_cons] at hold
  obtain ⟨h1,h2⟩ := nextOf_setLink mem heads b (xs.map Node.addr).getLast? (mem n.addr).next
  rw [List.map_append,h1,h2]
  refine relink_chain hold (Chain.rest hold) fun a hl hmem => ?_
  obtain ⟨m,hm,rfl,-⟩ := getLast?_mem hb hs hl
  exact (List.nodup_append.mp (Chain.nodup hold)).2.2 _ (List.mem_map_of_mem hm) _
    (List.mem_cons_of_mem _ hmem) rfl

/-- Setting a link leaves the other chains alone. -/
theorem setLink_chain_of_ne (h : Holds mem heads t) (ha : t.Addressed) (hb : b<S.size)
    (hs : t.chain b=xs++n::ys) (v : Option ℕ) {b' : ℕ} (hb' : b'<S.size) (hne : b'≠b) :
    let linked := setLink mem heads b (xs.map Node.addr).getLast? v
    Chain (nextOf linked.1) (linked.2 b') ((t.chain b').map Node.addr) := by
  intro linked
  rw [heads_setLink hne]
  refine Seg.congr (h.chains b' hb') fun a hmem => ?_
  obtain ⟨m,hm,rfl⟩ := List.mem_map.mp hmem
  have hmb : m.bucket=b' := (t.placed b' m hm).1
  rw [nextOf,setLink_of_ne,nextOf]
  intro hl
  obtain ⟨m',-,he,hm',hb''⟩ := getLast?_mem hb hs hl
  exact addr_ne_of_bucket_ne ha hm' (mem_nodes_of_chain hb' hm) (by omega) he

/-- Changing the link behind `xs` removes the next node from the bucket. -/
theorem setLink_holds (h : Holds mem heads t) (ha : t.Addressed) (hb : b<S.size)
    (hs : t.chain b=xs++n::ys) (hx : ∀ m∈xs,q m=false) (hq : q n=true) :
    let linked := setLink mem heads b (xs.map Node.addr).getLast? (mem n.addr).next
    Holds linked.1 linked.2 (t.unlink b q) := by
  intro linked
  have hchain := chain_unlink hs hx hq
  have hother : ∀ b',b'≠b→(t.unlink b q).chain b'=t.chain b' :=
    fun b' hne => Function.update_of_ne hne _ _
  refine ⟨fun b' hb' => ?_,fun m hm => ?_⟩
  · by_cases hne : b'=b
    · subst hne
      rw [hchain]
      exact setLink_chain h hb hs
    · rw [hother b' hne]
      exact setLink_chain_of_ne h ha hb hs _ hb' hne
  · rw [nodeAt_setLink]
    obtain ⟨hmb,hmc,-⟩ := mem_chain hm
    refine h.nodes m (mem_nodes_of_chain hmb ?_)
    by_cases hne : m.bucket=b
    · rw [hne,hchain] at hmc
      rw [hne,hs]
      exact ((List.sublist_cons_self n ys).append_left xs).subset hmc
    · rwa [hother _ hne] at hmc

/-- Unlinking the first cell that fits is unlinking the first node that fits; cells
outside the table stay as they are. -/
theorem unlinkCell_eq (h : Holds mem heads t) (ha : t.Addressed) (hb : b<S.size)
    (hpq : Matches t b p q) (hf : (t.chain b).length≤fuel) :
    match (t.chain b).find? q with
    | none => unlinkCell mem heads fuel b p=none
    | some n => ∃ mem' heads',unlinkCell mem heads fuel b p=some (n.addr,mem',heads') ∧
        Holds mem' heads' (t.unlink b q) ∧ ∀ a∉t.nodes.map Node.addr,mem' a=mem a := by
  unfold unlinkCell
  rcases find_cases q (t.chain b) with ⟨he,hx⟩|⟨xs,n,ys,hs,hx,hq,he⟩
  · rw [he,searchBucket_eq h hb hpq hf (List.append_nil _).symm hx (by simp)]
    rfl
  · rw [he,searchBucket_eq h hb hpq hf hs hx (by simpa using hq)]
    refine ⟨_,_,rfl,setLink_holds h ha hb hs hx hq,fun a hout => setLink_of_ne fun hl => hout ?_⟩
    obtain ⟨m,hm,rfl⟩ := List.mem_map.mp (List.mem_of_getLast? hl)
    refine List.mem_map_of_mem (mem_nodes_of_chain hb ?_)
    rw [hs]
    exact List.mem_append_left _ hm

/-- The loops release the nodes of the table, in order. -/
theorem drainTable_eq {σ : Type} (links : σ→ℕ→Option ℕ) (release : σ→ℕ→σ) {s : σ}
    (hf : ∀ s a b,b≠a→links (release s a) b=links s b) (h : Holds mem heads t) (ha : t.Addressed)
    (hs : links s=nextOf mem) (hl : ∀ b<S.size,(t.chain b).length≤fuel) :
    drainTable S links release heads fuel s=(t.nodes.map Node.addr).foldl release s := by
  have hnodes : t.nodes.map Node.addr=
      (List.range S.size).flatMap fun b => (t.chain b).map Node.addr := by
    rw [Table.nodes,List.map_flatMap]
  rw [Table.Addressed,hnodes] at ha
  rw [drainTable,hnodes]
  refine drainAll_eq hf _ s (fun b hb => ?_) ha fun b hb => ?_
  · rw [hs]
    exact h.chains b (List.mem_range.mp hb)
  · rw [List.length_map]
    exact hl b (List.mem_range.mp hb)

-- comparing two states must not run the loops over all buckets
attribute [irreducible] drainTable

/-- The first cell of some buckets is that of their first node. -/
theorem firstCell_eq (h : Holds mem heads t) (count i : ℕ) (hi : i+count≤S.size) :
    firstCell heads count i=(t.firstFrom count i).map Node.addr := by
  induction count generalizing i with
  | zero => rfl
  | succ count ih =>
    have hhead := Chain.head?_eq (h.chains i (by omega))
    rw [firstCell,Table.firstFrom,←hhead]
    cases t.chain i with
    | nil => exact ih (i+1) (by omega)
    | cons n ns => rfl

/-- The link of a cell leads to the node after it in the chain. -/
theorem next_after (h : Holds mem heads t) {n : Node κ ρ} (hn : n∈t.nodes) :
    (mem n.addr).next=(after (fun m => m.addr==n.addr) (t.chain n.bucket)).map Node.addr := by
  obtain ⟨hb,hc,-⟩ := mem_chain hn
  obtain ⟨xs,ys,hs⟩ := List.append_of_mem hc
  have hchain := h.chains n.bucket hb
  have hnodup := Chain.nodup hchain
  rw [hs,List.map_append,List.map_cons] at hchain hnodup
  have hx : ∀ m∈xs,¬(m.addr==n.addr)=true := by
    intro m hm he
    exact (List.nodup_append.mp hnodup).2.2 _ (List.mem_map_of_mem hm) _ (List.mem_cons_self ..)
      (by simpa using he)
  have hrest := Chain.head?_eq (Chain.rest hchain)
  rw [hs,after_append (by simp) xs ys hx,←List.head?_map,hrest,nextOf]

/-- The walk over cells is the walk over nodes. -/
theorem nextCell_eq (h : Holds mem heads t) {n : Node κ ρ} (hn : n∈t.nodes) :
    nextCell S mem heads (some n.addr)=(t.next (some n)).map Node.addr := by
  have hb := (mem_chain hn).1
  have hbucket : (mem n.addr).bucket=n.bucket := congrArg Node.bucket (h.nodes n hn)
  rw [nextCell,Table.next,next_after h hn,hbucket,firstCell_eq h _ _ (by omega)]
  cases after (fun m => m.addr==n.addr) (t.chain n.bucket) <;> rfl

/-- An iteration over the heap starts at the first node of the table. -/
theorem nextCell_none (h : Holds mem heads t) :
    nextCell S mem heads none=(t.next none).map Node.addr :=
  firstCell_eq h _ _ (by omega)

end IftopColor.ChainHeap
