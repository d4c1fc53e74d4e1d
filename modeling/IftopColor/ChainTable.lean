import Mathlib.Data.List.Nodup
import Mathlib.Data.List.Perm.Basic

/-!
# Chained hash tables with addressed nodes

A table is one chain of nodes for each bucket. Every node carries its own
address, its key, its record and its cached bucket; the table type carries the
proof that each node lies in the chain of its cached bucket, and that this
bucket is the hash of its key. The flat list of nodes, bucket after bucket, is
the abstract content: lookup, removal and the successor function are related
to it, so that users reason about one list and never about buckets.
-/

namespace IftopColor.ChainTable

/-- The functions a table is created with, and what every user of the table
relies on: hashes are in range and equal keys have equal hashes. -/
structure HashSpec (κ : Type) where
  /-- Number of buckets. -/
  size : ℕ
  /-- Bucket of a key. -/
  hash : κ→ℕ
  /-- Key comparison. -/
  compare : κ→κ→Bool
  /-- Every hash is a bucket of the table. -/
  hash_lt : ∀ key,hash key<size
  /-- Keys that compare equal share a bucket. -/
  hash_eq : ∀ a b,compare a b=true→hash a=hash b

/-- One node of a chain. -/
structure Node (κ ρ : Type) where
  /-- Address of the node, its identity in pointer comparisons. -/
  addr : ℕ
  /-- Key the node was inserted under. -/
  key : κ
  /-- User data. -/
  record : ρ
  /-- Cached bucket index. -/
  bucket : ℕ

/-- Chains of nodes, each node in the chain of its cached bucket. -/
structure Table {κ : Type} (S : HashSpec κ) (ρ : Type) where
  /-- The chain of every bucket. -/
  chain : ℕ→List (Node κ ρ)
  /-- The cached bucket is the chain's index and the hash of the key. -/
  placed : ∀ b,∀ n∈chain b,n.bucket=b ∧ S.hash n.key=b

variable {κ ρ : Type} {S : HashSpec κ}

/-- The table whose chains are all empty. -/
def Table.empty : Table S ρ := ⟨fun _ => [],by simp⟩

/-- All nodes, bucket after bucket and along each chain. -/
def Table.nodes (t : Table S ρ) : List (Node κ ρ) := (List.range S.size).flatMap t.chain

/-- Exchange one chain. -/
def Table.setChain (t : Table S ρ) (b : ℕ) (c : List (Node κ ρ))
    (hc : ∀ n∈c,n.bucket=b ∧ S.hash n.key=b) : Table S ρ :=
  ⟨Function.update t.chain b c,by
    intro b' n hn
    by_cases he : b'=b
    · subst he
      rw [Function.update_self] at hn
      exact hc n hn
    · rw [Function.update_of_ne he] at hn
      exact t.placed b' n hn⟩

/-- Put a new node at the head of the chain of its key. -/
def Table.push (t : Table S ρ) (addr : ℕ) (key : κ) (record : ρ) : Table S ρ :=
  t.setChain (S.hash key) (⟨addr,key,record,S.hash key⟩::t.chain (S.hash key)) (by
    intro n hn
    rcases List.mem_cons.mp hn with rfl|hn
    · exact ⟨rfl,rfl⟩
    · exact t.placed _ n hn)

/-- First node of the key's chain that compares equal to the key. -/
def Table.find (t : Table S ρ) (key : κ) : Option (Node κ ρ) :=
  (t.chain (S.hash key)).find? fun n => S.compare n.key key

/-- Unlink the first node of bucket `b` that satisfies `p`. -/
def Table.unlink (t : Table S ρ) (b : ℕ) (p : Node κ ρ→Bool) : Table S ρ :=
  t.setChain b ((t.chain b).eraseP p) fun n hn => t.placed b n (List.mem_of_mem_eraseP hn)

/-- The node linked after the first one that satisfies `p`. -/
def after (p : Node κ ρ→Bool) : List (Node κ ρ)→Option (Node κ ρ)
  | [] => none
  | [_] => none
  | a::b::rest => if p a then some b else after p (b::rest)

/-- First node of the `count` buckets from bucket `i` on. -/
def Table.firstFrom (t : Table S ρ) : ℕ→ℕ→Option (Node κ ρ)
  | 0,_ => none
  | count+1,i =>
    match t.chain i with
    | [] => t.firstFrom count (i+1)
    | n::_ => some n

/-- Successor of a node in a walk over the table; `none` starts the walk. -/
def Table.next (t : Table S ρ) : Option (Node κ ρ)→Option (Node κ ρ)
  | none => t.firstFrom S.size 0
  | some n =>
    match after (fun m => m.addr==n.addr) (t.chain n.bucket) with
    | some m => some m
    | none => t.firstFrom (S.size-(n.bucket+1)) (n.bucket+1)

/-- The nodes met by repeating the successor function, at most `fuel` of them. -/
def Table.walk (t : Table S ρ) : ℕ→Option (Node κ ρ)→List (Node κ ρ)
  | 0,_ => []
  | fuel+1,cur =>
    match t.next cur with
    | none => []
    | some n => n::t.walk fuel (some n)

/-- Nodes have pairwise different addresses. -/
def Table.Addressed (t : Table S ρ) : Prop := (t.nodes.map Node.addr).Nodup

section Content

variable {t : Table S ρ} {b : ℕ}

/-- Nodes of the buckets below `b`. -/
def Table.before (t : Table S ρ) (b : ℕ) : List (Node κ ρ) := (List.range b).flatMap t.chain

/-- Nodes of the buckets above `b`. -/
def Table.beyond (t : Table S ρ) (b : ℕ) : List (Node κ ρ) :=
  (List.range' (b+1) (S.size-(b+1))).flatMap t.chain

/-- The content is the lower buckets, the bucket itself and the upper buckets. -/
theorem nodes_split (t : Table S ρ) (hb : b<S.size) :
    t.nodes=t.before b++(t.chain b++t.beyond b) := by
  have hr : List.range S.size=List.range b++b::List.range' (b+1) (S.size-(b+1)) := by
    rw [List.range_eq_range',List.range_eq_range']
    have ha := List.range'_append_1 (s:=0) (m:=b) (n:=S.size-b)
    rw [Nat.add_sub_cancel' (Nat.le_of_lt hb),Nat.zero_add] at ha
    rw [←ha,show S.size-b=(S.size-(b+1))+1 by omega,List.range'_succ]
  simp only [Table.nodes,Table.before,Table.beyond,hr,List.flatMap_append,List.flatMap_cons]

/-- Exchanging one chain exchanges the middle part of the content. -/
theorem nodes_setChain (t : Table S ρ) (hb : b<S.size) {c : List (Node κ ρ)}
    (hc : ∀ n∈c,n.bucket=b ∧ S.hash n.key=b) :
    (t.setChain b c hc).nodes=t.before b++(c++t.beyond b) := by
  rw [nodes_split _ hb]
  have hl : (t.setChain b c hc).before b=t.before b := by
    apply List.flatMap_congr
    intro i hi
    exact Function.update_of_ne (by have := List.mem_range.mp hi; omega) _ _
  have hu : (t.setChain b c hc).beyond b=t.beyond b := by
    apply List.flatMap_congr
    intro i hi
    have := List.mem_range'_1.mp hi
    exact Function.update_of_ne (by omega) _ _
  rw [hl,hu]
  simp only [Table.setChain,Function.update_self]

/-- A listed node lies in the chain of its cached bucket, which is in range. -/
theorem mem_chain {n : Node κ ρ} (hn : n∈t.nodes) :
    n.bucket<S.size ∧ n∈t.chain n.bucket ∧ n.bucket=S.hash n.key := by
  obtain ⟨b,hb,hc⟩ := List.mem_flatMap.mp hn
  obtain ⟨h1,h2⟩ := t.placed b n hc
  have hs := List.mem_range.mp hb
  subst h1
  exact ⟨hs,hc,h2.symm⟩

/-- A node below the bucket has another bucket. -/
theorem bucket_lt_of_before {n : Node κ ρ} (hn : n∈t.before b) : n.bucket<b ∧ S.hash n.key<b := by
  obtain ⟨i,hi,hc⟩ := List.mem_flatMap.mp hn
  obtain ⟨h1,h2⟩ := t.placed i n hc
  have := List.mem_range.mp hi
  omega

/-- The empty table has no nodes. -/
@[simp] theorem nodes_empty : (Table.empty : Table S ρ).nodes=[] := by
  simp [Table.nodes,Table.empty]

/-- Pushing adds one node and keeps all the others. -/
theorem nodes_push (t : Table S ρ) (addr : ℕ) (key : κ) (record : ρ) :
    (t.push addr key record).nodes.Perm (⟨addr,key,record,S.hash key⟩::t.nodes) := by
  rw [Table.push,nodes_setChain _ (S.hash_lt key),nodes_split t (S.hash_lt key)]
  exact List.perm_middle

/-- Lookup in the key's chain is lookup in the whole content. -/
theorem find_eq (t : Table S ρ) (key : κ) :
    t.find key=t.nodes.find? fun n => S.compare n.key key := by
  rw [nodes_split t (S.hash_lt key),List.find?_append,List.find?_append,Table.find]
  have hl : (t.before (S.hash key)).find? (fun n => S.compare n.key key)=none := by
    rw [List.find?_eq_none]
    intro n hn hc
    have := (bucket_lt_of_before hn).2
    have := S.hash_eq _ _ hc
    omega
  have hu : (t.beyond (S.hash key)).find? (fun n => S.compare n.key key)=none := by
    rw [List.find?_eq_none]
    intro n hn hc
    obtain ⟨i,hi,hm⟩ := List.mem_flatMap.mp hn
    have := (t.placed i n hm).2
    have := S.hash_eq _ _ hc
    have := List.mem_range'_1.mp hi
    omega
  rw [hl,hu]
  simp

/-- Unlinking in bucket `b` is unlinking in the whole content when the
predicate only holds of nodes of that bucket. -/
theorem nodes_unlink (t : Table S ρ) (hb : b<S.size) {p : Node κ ρ→Bool}
    (hp : ∀ n∈t.nodes,p n=true→n.bucket=b) : (t.unlink b p).nodes=t.nodes.eraseP p := by
  rw [Table.unlink,nodes_setChain _ hb]
  have hs := nodes_split t hb
  have hl : ∀ n∈t.before b,¬p n=true := by
    intro n hn hc
    have he := hp n (by rw [hs]; exact List.mem_append_left _ hn) hc
    have := (bucket_lt_of_before hn).1
    omega
  have hu : ∀ n∈t.beyond b,¬p n=true := by
    intro n hn hc
    have he := hp n (by rw [hs]; exact List.mem_append_right _ (List.mem_append_right _ hn)) hc
    obtain ⟨i,hi,hm⟩ := List.mem_flatMap.mp hn
    have := (t.placed i n hm).1
    have := List.mem_range'_1.mp hi
    omega
  rw [hs,List.eraseP_append_right _ hl,List.eraseP_append]
  split
  · rfl
  · rename_i hn
    rw [List.eraseP_of_forall_not hu,List.eraseP_of_forall_not]
    intro n hn' hc
    exact hn (List.any_eq_true.mpr ⟨n,hn',hc⟩)

/-- A chain is the part of the content that has its bucket. -/
theorem chain_eq_filter (t : Table S ρ) (hb : b<S.size) :
    t.chain b=t.nodes.filter fun n => n.bucket==b := by
  have hl : (t.before b).filter (fun n => n.bucket==b)=[] := by
    refine List.filter_eq_nil_iff.mpr fun n hn he => ?_
    have := (bucket_lt_of_before hn).1
    have := beq_iff_eq.mp he
    omega
  have hc : (t.chain b).filter (fun n => n.bucket==b)=t.chain b :=
    List.filter_eq_self.mpr fun n hn => beq_iff_eq.mpr (t.placed b n hn).1
  have hu : (t.beyond b).filter (fun n => n.bucket==b)=[] := by
    refine List.filter_eq_nil_iff.mpr fun n hn he => ?_
    obtain ⟨i,hi,hm⟩ := List.mem_flatMap.mp hn
    have := (t.placed i n hm).1
    have := List.mem_range'_1.mp hi
    have := beq_iff_eq.mp he
    omega
  rw [nodes_split t hb,List.filter_append,List.filter_append,hl,hc,hu,List.append_nil]
  rfl

end Content

section Walk

variable {t : Table S ρ}

/-- The head of the concatenated chains is the first node found. -/
theorem firstFrom_eq (t : Table S ρ) (count i : ℕ) :
    t.firstFrom count i=((List.range' i count).flatMap t.chain).head? := by
  induction count generalizing i with
  | zero => rfl
  | succ count ih =>
    rw [List.range'_succ,List.flatMap_cons,Table.firstFrom]
    cases hc : t.chain i with
    | nil => rw [ih]; rfl
    | cons n rest => rfl

/-- The node that comes after a distinguished member of a list is the head of the rest. -/
theorem after_append {p : Node κ ρ→Bool} {n : Node κ ρ} (hn : p n=true)
    (xs ys : List (Node κ ρ)) (hx : ∀ m∈xs,¬p m=true) : after p (xs++n::ys)=ys.head? := by
  induction xs with
  | nil => cases ys <;> simp [after,hn]
  | cons x xs ih =>
    have hi := ih fun m hm => hx m (List.mem_cons_of_mem _ hm)
    have hf := hx x (List.mem_cons_self ..)
    cases xs with
    | nil => simpa [after,hf] using hi
    | cons y xs => simpa [after,hf] using hi

/-- Two splits of an addressed content at the same node coincide. -/
theorem split_unique (ha : t.Addressed) {n : Node κ ρ} {xs ys xs' ys' : List (Node κ ρ)}
    (h : t.nodes=xs++n::ys) (h' : t.nodes=xs'++n::ys') : xs=xs' ∧ ys=ys' := by
  have hd : (xs++n::ys).Nodup := by
    rw [←h]
    exact List.Nodup.of_map _ ha
  obtain ⟨-,hn,hd⟩ := List.nodup_append.mp hd
  have hx : n∉xs := fun hm => hd n hm n (List.mem_cons_self ..) rfl
  obtain ⟨h1,-,h2⟩ := (List.append_cons_inj_of_notMem hx (List.nodup_cons.mp hn).1).mp
    (h.symm.trans h')
  exact ⟨h1,h2⟩

/-- The successor function follows the content list. -/
theorem next_eq (ha : t.Addressed) {n : Node κ ρ} {xs ys : List (Node κ ρ)}
    (h : t.nodes=xs++n::ys) : t.next (some n)=ys.head? := by
  have hm : n∈t.nodes := by rw [h]; simp
  obtain ⟨hb,hc,-⟩ := mem_chain hm
  obtain ⟨cs,ds,hcd⟩ := List.append_of_mem hc
  have hs := nodes_split t hb
  rw [hcd] at hs
  have hs' : t.nodes=(t.before n.bucket++cs)++n::(ds++t.beyond n.bucket) := by
    rw [hs]; simp
  obtain ⟨-,rfl⟩ := split_unique ha h hs'
  have hx : ∀ m∈cs,¬(m.addr==n.addr)=true := by
    intro m hm' he
    have hd := ha
    rw [Table.Addressed,hs'] at hd
    simp only [List.map_append,List.map_cons,List.append_assoc] at hd
    have hd := (List.nodup_append.mp (List.nodup_append.mp hd).2.1).2.2
    exact hd m.addr (List.mem_map_of_mem hm') n.addr (List.mem_cons_self ..) (by simpa using he)
  have hf := after_append (p:=fun m => m.addr==n.addr) (n:=n) (by simp) cs ds hx
  rw [Table.next,hcd,hf,firstFrom_eq,List.head?_append]
  cases ds with
  | nil => simp [Table.beyond]
  | cons d ds => simp

/-- The walk starts at the head of the content. -/
theorem next_none (t : Table S ρ) : t.next none=t.nodes.head? := by
  rw [Table.next,firstFrom_eq,Table.nodes,List.range_eq_range']

/-- A walk continues with the rest of the content. -/
theorem walk_eq_rest (ha : t.Addressed) (ys : List (Node κ ρ)) :
    ∀ (xs : List (Node κ ρ)) (n : Node κ ρ),t.nodes=xs++n::ys→
      t.walk ys.length (some n)=ys := by
  induction ys with
  | nil => intro xs n _; rfl
  | cons y ys ih =>
    intro xs n h
    have hn := next_eq ha h
    have hi := ih (xs++[n]) y (by rw [h]; simp)
    rw [List.length_cons,Table.walk,hn]
    simp only [List.head?_cons,hi]

/-- Repeating the successor function from the start visits every node
exactly once, in the order of the content. -/
theorem walk_eq (ha : t.Addressed) : t.walk t.nodes.length none=t.nodes := by
  cases hn : t.nodes with
  | nil => rfl
  | cons n ys =>
    have hw := walk_eq_rest ha ys [] n (by simpa using hn)
    rw [List.length_cons,Table.walk,next_none,hn]
    simp only [List.head?_cons,hw]

/-- A listed node shares its address with no other. -/
theorem addr_ne_of_split (ha : t.Addressed) {n : Node κ ρ} {xs ys : List (Node κ ρ)}
    (h : t.nodes=xs++n::ys) : ∀ m∈xs++ys,m.addr≠n.addr := by
  have hd := ha
  rw [Table.Addressed,h,List.map_append,List.map_cons,List.nodup_middle,←List.map_append] at hd
  intro m hm he
  exact (List.nodup_cons.mp hd).1 (he ▸ List.mem_map_of_mem hm)

/-- A listed node is found by its address in its bucket. -/
theorem find_addr (ha : t.Addressed) {n : Node κ ρ} (hn : n∈t.nodes) :
    (t.chain n.bucket).find? (fun m => m.addr==n.addr)=some n := by
  obtain ⟨hb,hc,-⟩ := mem_chain hn
  cases hf : (t.chain n.bucket).find? fun m => m.addr==n.addr with
  | none =>
    rw [List.find?_eq_none] at hf
    exact absurd (by simp) (hf n hc)
  | some m =>
    have he : m.addr=n.addr := by simpa using List.find?_some hf
    have hm : m∈t.nodes := by
      rw [nodes_split t hb]
      exact List.mem_append_right _ (List.mem_append_left _ (List.mem_of_find?_eq_some hf))
    rw [List.inj_on_of_nodup_map ha hm hn he]

/-- Unlinking a listed node by its address removes exactly that node. -/
theorem nodes_unlink_addr (ha : t.Addressed) {n : Node κ ρ} {xs ys : List (Node κ ρ)}
    (h : t.nodes=xs++n::ys) :
    (t.unlink n.bucket fun m => m.addr==n.addr).nodes=xs++ys := by
  have hne := addr_ne_of_split ha h
  have hx : ∀ m∈xs,¬(m.addr==n.addr)=true :=
    fun m hm he => hne m (List.mem_append_left _ hm) (beq_iff_eq.mp he)
  have hn : n∈t.nodes := by
    rw [h]
    simp
  rw [nodes_unlink t (mem_chain hn).1]
  · rw [h,List.eraseP_append_right _ hx,List.eraseP_cons_of_pos (by simp)]
  · intro m hm he
    rw [List.inj_on_of_nodup_map ha hm hn (beq_iff_eq.mp he)]

end Walk

-- tables are large: comparing two of them must not unfold all their buckets
attribute [irreducible] Table.nodes

end IftopColor.ChainTable
