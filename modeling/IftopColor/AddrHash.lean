import IftopColor.BlockPool
import IftopColor.NetBytes
import IftopColor.RecordStore
import Mathlib.Tactic.FinCases

/-!
# Address pairs and the tables keyed by them

Addresses are kept as the bytes of `struct in_addr` and `struct in6_addr`. An
address pair is the key of a flow; its two unions are sixteen bytes, of which
an IPv4 address uses the first four. The generic operations of `hash.c` and
the pooled operations of `addr_hash.c` act on chained tables; nodes of all
address tables come from one shared pool.
-/

namespace IftopColor.AddrHash

open NetBytes ChainTable BlockPool RecordStore

/-- Bytes of `struct in_addr`, in network order. -/
abbrev InAddr := Bytes 4

/-- Bytes of `struct in6_addr`. -/
abbrev In6Addr := Bytes 16

/-- Values of `address_family` that occur; zeroed memory reads as `unspec`. -/
inductive AddressFamily where
  | unspec
  | inet
  | inet6
  deriving DecidableEq

/-- The union member `src6` or `dst6` after its IPv4 member was written over
zeroed memory. -/
def in6OfIn (a : InAddr) : In6Addr := fun j => if h : j.val<4 then a ⟨j,h⟩ else 0

/-- The IPv4 member of the union: its first four bytes. -/
def inOfIn6 (a : In6Addr) : InAddr := fun j => a ⟨j,by omega⟩

/-- The IPv4 member that is read back from the union is the one that was written. -/
@[simp] theorem inOfIn6_in6OfIn (a : InAddr) : inOfIn6 (in6OfIn a)=a := by
  funext j
  simp [inOfIn6,in6OfIn]

/-- Four consecutive bytes read as a 32-bit word on a little-endian host. -/
def hostWord (b0 b1 b2 b3 : UInt8) : UInt32 :=
  UInt32.ofNat (b0.toNat+256*b1.toNat+65536*b2.toNat+16777216*b3.toNat)

/-- The member `s_addr` as the host reads it. -/
def sAddr (a : InAddr) : UInt32 := hostWord (a 0) (a 1) (a 2) (a 3)

/-- No two byte quadruples read as the same word. -/
theorem sAddr_injective : Function.Injective sAddr := by
  intro a b h
  have hn := congrArg UInt32.toNat h
  have ha (j : Fin 4) := (a j).toNat_lt
  have hb (j : Fin 4) := (b j).toNat_lt
  have h0 := ha 0; have h1 := ha 1; have h2 := ha 2; have h3 := ha 3
  have k0 := hb 0; have k1 := hb 1; have k2 := hb 2; have k3 := hb 3
  simp only [sAddr,hostWord,UInt32.toNat_ofNat'] at hn
  funext j
  apply UInt8.toNat_inj.mp
  fin_cases j <;> simp only [Fin.zero_eta,Fin.mk_one,Fin.reduceFinMk] <;> omega

/-- Key of a flow: `addr_pair`. The padding of the C structure is always
zeroed before a key is compared, so it carries no information. -/
structure AddrPair where
  /-- Address family of both endpoints. -/
  addressFamily : AddressFamily
  /-- Transport protocol number. -/
  protocol : UInt16
  /-- Port of the first endpoint, host order. -/
  srcPort : UInt16
  /-- Union of `src` and `src6`. -/
  src6 : In6Addr
  /-- Port of the second endpoint, host order. -/
  dstPort : UInt16
  /-- Union of `dst` and `dst6`. -/
  dst6 : In6Addr
  deriving DecidableEq

/-- Zeroed memory read as an address pair. -/
def AddrPair.zero : AddrPair := ⟨.unspec,0,0,fun _ => 0,0,fun _ => 0⟩

/-- The IPv4 member of the first union. -/
abbrev AddrPair.src (ap : AddrPair) : InAddr := inOfIn6 ap.src6

/-- The IPv4 member of the second union. -/
abbrev AddrPair.dst (ap : AddrPair) : InAddr := inOfIn6 ap.dst6

section Hash

variable {κ ρ : Type} {S : HashSpec κ}

/-- `hash_insert`: a node at the given fresh address, in front of its chain. -/
def hashInsert (t : Table S ρ) (node : ℕ) (key : κ) (record : ρ) : Table S ρ :=
  t.push node key record

/-- `hash_find`: the record of the first node of the chain whose key compares
equal, or `none` for `HASH_STATUS_KEY_NOT_FOUND`. -/
def hashFind (t : Table S ρ) (key : κ) : Option ρ := (t.find key).map Node.record

/-- `hash_delete`: unlink the first node of the chain whose key compares
equal; an absent key leaves the table as it is. -/
def hashDelete (t : Table S ρ) (key : κ) : Table S ρ :=
  match t.find key with
  | none => t
  | some _ => t.unlink (S.hash key) fun n => S.compare n.key key

/-- `hash_next_item`: the successor of a node, or the first node for a null
argument; `none` for `HASH_STATUS_KEY_NOT_FOUND`. -/
def hashNextItem (t : Table S ρ) (node : Option (Node κ ρ)) : Option (Node κ ρ) := t.next node

/-- The nodes that a loop `while (hash_next_item(t, &node) == HASH_STATUS_OK)`
visits, as long as its body leaves the table's links alone. -/
def hashItems (t : Table S ρ) : List (Node κ ρ) := t.walk t.nodes.length none

/-- `hash_delete_all_free`: every chain becomes empty. -/
def hashDeleteAllFree (_t : Table S ρ) : Table S ρ := Table.empty

end Hash

/-- `hash_mix`: xor, rotate left by five, multiply by the golden ratio word. -/
def hashMix (hashVal val : UInt32) : UInt32 :=
  let x := hashVal ^^^ val
  ((x <<< 5) ||| (x >>> 27))*0x9e3779b9

/-- Word `i` of the sixteen address bytes. -/
def addr6Word (a : In6Addr) (i : Fin 4) : UInt32 :=
  hostWord (a ⟨4*i,by omega⟩) (a ⟨4*i+1,by omega⟩) (a ⟨4*i+2,by omega⟩) (a ⟨4*i+3,by omega⟩)

/-- `hash_table_size` of `addr_hash.c`. -/
def hashTableSize : ℕ := 2048

/-- `addr_hash_bucket`: all words of both addresses and both ports for IPv6,
the IPv4 members otherwise. -/
def addrHashBucket (pair : AddrPair) : ℕ :=
  let hashVal :=
    if pair.addressFamily=.inet6 then
      let h := hashMix 0 (addr6Word pair.src6 0)
      let h := hashMix h (addr6Word pair.src6 1)
      let h := hashMix h (addr6Word pair.src6 2)
      let h := hashMix h (addr6Word pair.src6 3)
      let h := hashMix h pair.srcPort.toUInt32
      let h := hashMix h (addr6Word pair.dst6 0)
      let h := hashMix h (addr6Word pair.dst6 1)
      let h := hashMix h (addr6Word pair.dst6 2)
      let h := hashMix h (addr6Word pair.dst6 3)
      hashMix h pair.dstPort.toUInt32
    else
      let h := hashMix 0 (sAddr pair.src)
      let h := hashMix h pair.srcPort.toUInt32
      let h := hashMix h (sAddr pair.dst)
      hashMix h pair.dstPort.toUInt32
  hashVal.toNat &&& (hashTableSize-1)

/-- `addr_compare`: equality of all bytes of the keys. -/
def addrCompare (lhs rhs : AddrPair) : Bool := decide (lhs=rhs)

/-- The bucket mask keeps every hash inside the table. -/
theorem addrHashBucket_lt (pair : AddrPair) : addrHashBucket pair<hashTableSize := by
  unfold addrHashBucket
  exact lt_of_le_of_lt Nat.and_le_right (by decide)

/-- The functions `addr_hash_create` installs in a table. -/
def addrHashSpec : HashSpec AddrPair where
  size := hashTableSize
  hash := addrHashBucket
  compare := addrCompare
  hash_lt := addrHashBucket_lt
  hash_eq := by
    intro a b h
    rw [of_decide_eq_true h]

/-- Tables made by `addr_hash_create`; records are pointers. -/
abbrev AddrTable := Table addrHashSpec ℕ

/-- Comparison in address tables is equality of keys. -/
theorem addrCompare_iff (a b : AddrPair) : addrHashSpec.compare a b=true ↔ a=b :=
  decide_eq_true_iff

/-- `POOL_BLOCK_SIZE`. -/
def poolBlockSize : ℕ := 256

/-- `addr_hash_find`. -/
def addrHashFind (t : AddrTable) (key : AddrPair) : Option ℕ := (t.find key).map Node.record

/-- `addr_hash_insert`: the node and its key come from the shared pool. -/
def addrHashInsert (t : AddrTable) (pool : Pool) (key : AddrPair) (record : ℕ) : AddrTable×Pool :=
  let (node,pool) := pool.alloc poolBlockSize
  (t.push node key record,pool)

/-- `addr_hash_delete_node`: search the cached bucket for the node itself. -/
def addrHashDeleteNode (t : AddrTable) (pool : Pool) (target : Node AddrPair ℕ) : AddrTable×Pool :=
  match (t.chain target.bucket).find? fun n => n.addr==target.addr with
  | none => (t,pool)
  | some node => (t.unlink target.bucket fun n => n.addr==target.addr,pool.release node.addr)

/-- `addr_hash_delete_all_free`: every node goes back to the pool, in the order
of the buckets; the last component lists the records that were freed. -/
def addrHashDeleteAllFree (t : AddrTable) (pool : Pool) : AddrTable×Pool×List ℕ :=
  (Table.empty,t.nodes.foldl (fun pool n => pool.release n.addr) pool,t.nodes.map Node.record)

/-- Addresses of the nodes of a table. -/
abbrev addrs {κ ρ : Type} {S : HashSpec κ} (t : Table S ρ) : List ℕ := t.nodes.map Node.addr

variable {t : AddrTable} {pool : Pool} {frame : List ℕ}

/-- An insertion takes one node from the pool, whatever else the pool has in
use, and that node was not linked before. -/
theorem addrHashInsert_owns (key : AddrPair) (record : ℕ)
    (h : Owns poolBlockSize pool (addrs t++frame)) :
    Owns poolBlockSize (addrHashInsert t pool key record).2
      (addrs (addrHashInsert t pool key record).1++frame) ∧
    (pool.alloc poolBlockSize).1∉addrs t := by
  have hf := alloc_fresh (by decide) h
  refine ⟨?_,fun hm => hf (List.mem_append_left _ hm)⟩
  refine (alloc_owns (by decide) h).perm ?_
  have hp := (nodes_push t (pool.alloc poolBlockSize).1 key record).map Node.addr
  exact (hp.append_right frame).symm

/-- Deleting a linked node removes it from the content and returns exactly its
address to the pool. -/
theorem addrHashDeleteNode_eq (pool : Pool) (ha : t.Addressed) {n : Node AddrPair ℕ}
    {xs ys : List (Node AddrPair ℕ)} (hn : t.nodes=xs++n::ys) :
    (addrHashDeleteNode t pool n).1.nodes=xs++ys ∧
      (addrHashDeleteNode t pool n).2=pool.release n.addr := by
  have hm : n∈t.nodes := by rw [hn]; simp
  rw [addrHashDeleteNode,find_addr ha hm]
  exact ⟨nodes_unlink_addr ha hn,rfl⟩

/-- Deleting a node seen from the pool gives one item back and leaves the frame untouched. -/
theorem addrHashDeleteNode_owns (ha : t.Addressed) {n : Node AddrPair ℕ}
    {xs ys : List (Node AddrPair ℕ)} (hn : t.nodes=xs++n::ys)
    (h : Owns poolBlockSize pool (addrs t++frame)) :
    Owns poolBlockSize (addrHashDeleteNode t pool n).2
      (addrs (addrHashDeleteNode t pool n).1++frame) := by
  obtain ⟨h1,h2⟩ := addrHashDeleteNode_eq pool ha hn
  rw [addrs,h1,h2]
  apply release_owns
  refine h.perm ?_
  rw [addrs,hn]
  simp only [List.map_append,List.map_cons,List.append_assoc,List.cons_append]
  exact List.perm_middle

/-- Releasing a list of items one after the other. -/
theorem foldl_release_owns (ns : List (Node AddrPair ℕ)) (pool : Pool)
    (h : Owns poolBlockSize pool (ns.map Node.addr++frame)) :
    Owns poolBlockSize (ns.foldl (fun pool n => pool.release n.addr) pool) frame := by
  induction ns generalizing pool with
  | nil => simpa using h
  | cons n ns ih => exact ih _ (release_owns h)

/-- Emptying a table returns all of its nodes and touches no other. -/
theorem addrHashDeleteAllFree_owns (h : Owns poolBlockSize pool (addrs t++frame)) :
    Owns poolBlockSize (addrHashDeleteAllFree t pool).2.1
      (addrs (addrHashDeleteAllFree t pool).1++frame) := by
  simpa [addrHashDeleteAllFree,addrs] using foldl_release_owns t.nodes pool h

/-- The loop over `hash_next_item` visits the content in order. -/
theorem hashItems_eq {κ ρ : Type} {S : HashSpec κ} {t : Table S ρ} (ha : t.Addressed) :
    hashItems t=t.nodes :=
  walk_eq ha

end IftopColor.AddrHash
