import IftopColor.RingQueue
import IftopColor.PacketDirection

/-!
# The name cache and the resolver queue

`resolve` answers from the cache; an address it does not know gets its numeric
form at once and is queued for the workers. A worker takes the oldest address
off the queue, asks the name service without holding the mutex, and stores the
answer. Sections under the mutex are atomic here. The name service and the
printing of addresses are parameters.
-/

namespace IftopColor.Resolver

open ChainTable AddrHash Options PacketDirection RingQueue

/-- `addr_storage`, as `resolve` fills it: zeroed memory, the family, the
length of the address and its bytes. -/
structure AddrStorage where
  /-- Family the caller asked for. -/
  addressFamily : AddressFamily
  /-- Bytes of the address in use. -/
  addrLen : ℕ
  /-- The union of both kinds of address. -/
  addr : In6Addr
  /-- Only IPv4 addresses are short. -/
  len_eq : addrLen=if addressFamily=.inet then 4 else 16
  /-- The rest of the union is zero. -/
  padded : ∀ j : Fin 16,addrLen≤j→addr j=0
  deriving DecidableEq

/-- The key that `resolve` builds from its arguments. -/
def AddrStorage.make (af : AddressFamily) (addr : In6Addr) : AddrStorage where
  addressFamily := af
  addrLen := if af=.inet then 4 else 16
  addr := fun j => if j.val<(if af=.inet then 4 else 16) then addr j else 0
  len_eq := rfl
  padded := fun _ h => if_neg (not_lt.mpr h)

/-- `ns_hash_compare`: `memcmp` on the length of the left key. -/
def nsHashCompare (l r : AddrStorage) : Bool :=
  if l.addressFamily≠r.addressFamily then false
  else decide (∀ j : Fin 16,j.val<l.addrLen→l.addr j=r.addr j)

/-- `ns_hash_hash`: the sum of the address bytes. -/
def nsHashHash (a : AddrStorage) : ℕ :=
  ((List.finRange 16).map fun j => if j.val<a.addrLen then (a.addr j).toNat else 0).sum%0xff

/-- Keys that compare equal are equal. -/
theorem nsHashCompare_iff (l r : AddrStorage) : nsHashCompare l r=true ↔ l=r := by
  constructor
  · intro h
    unfold nsHashCompare at h
    split at h
    · simp at h
    · rename_i hf
      have hf : l.addressFamily=r.addressFamily := by simpa using hf
      have hlen : l.addrLen=r.addrLen := by rw [l.len_eq,r.len_eq,hf]
      have hb := of_decide_eq_true h
      have haddr : l.addr=r.addr := by
        funext j
        by_cases hj : j.val<l.addrLen
        · exact hb j hj
        · rw [l.padded j (by omega),r.padded j (by omega)]
      cases l
      cases r
      simp only [AddrStorage.mk.injEq]
      exact ⟨hf,hlen,haddr⟩
  · rintro rfl
    simp [nsHashCompare]

/-- The functions `ns_hash_create` installs in a table. -/
def nsHashSpec : HashSpec AddrStorage where
  size := 256
  hash := nsHashHash
  compare := nsHashCompare
  hash_lt := fun _ => (Nat.mod_lt _ (by decide)).trans (by decide)
  hash_eq := fun a b h => by rw [(nsHashCompare_iff a b).mp h]

/-- `RESOLVE_QUEUE_LENGTH`. -/
abbrev resolveQueueLength : ℕ := 20

/-- `NS_HASH_MAX_ENTRIES`. -/
def nsHashMaxEntries : ℕ := 16384

/-- Globals of the resolver, all protected by its mutex. -/
structure ResolverState where
  /-- The cache; its records are the texts, which it owns. -/
  nsHash : Table nsHashSpec (List Char)
  /-- `ns_hash_n_entries`. -/
  nsHashNEntries : ℕ
  /-- Heap addresses of nodes from here on were never handed out. -/
  nodeBrk : ℕ
  /-- `resolve_queue` with `head` and `tail`. -/
  queue : Ring AddrStorage resolveQueueLength

/-- State after `resolver_initialise`. -/
def resolverInitialise : ResolverState := ⟨Table.empty,0,0,Ring.empty (by decide)⟩

/-- `ns_hash_evict_if_full`. -/
def nsHashEvictIfFull (maxEntries : ℕ) (s : ResolverState) : ResolverState :=
  if s.nsHashNEntries≥maxEntries then
    {s with nsHash := hashDeleteAllFree s.nsHash,nsHashNEntries := 0}
  else s

/-- `hash_insert` on the cache, with a new node. -/
def nsHashInsert (raddr : AddrStorage) (hostname : List Char) (s : ResolverState) : ResolverState :=
  {s with nsHash := hashInsert s.nsHash s.nodeBrk raddr hostname,nodeBrk := s.nodeBrk+1}

/-- `IN6_IS_ADDR_SITELOCAL`: the prefix `fec0::/10`. -/
def in6IsAddrSitelocal (a : In6Addr) : Bool := in6HasPrefix 0xc0 a

/-- Addresses that stay numerical. -/
def staysNumerical (raddr : AddrStorage) : Bool :=
  decide (raddr.addressFamily=.inet6) &&
    (in6IsAddrLinklocal raddr.addr || in6IsAddrSitelocal raddr.addr)

/-- What `resolve` computes under the mutex. -/
structure ResolveReport where
  /-- The text for the caller. -/
  hostname : List Char
  /-- The address was queued, so that a signal has to follow. -/
  added : Bool
  /-- State of the resolver. -/
  state : ResolverState

/-- The section of `resolve` under the mutex. -/
def resolveLocked (inetNtop : AddressFamily→In6Addr→List Char) (raddr : AddrStorage)
    (s : ResolverState) : ResolveReport :=
  match hashFind s.nsHash raddr with
  | some hostname => ⟨hostname,false,s⟩
  | none =>
    let s := nsHashEvictIfFull nsHashMaxEntries s
    let hostname := inetNtop raddr.addressFamily raddr.addr
    let s := nsHashInsert raddr hostname s
    let s := {s with nsHashNEntries := s.nsHashNEntries+1}
    if s.queue.Full then ⟨hostname,false,s⟩
    else if staysNumerical raddr then ⟨hostname,false,s⟩
    else ⟨hostname,true,{s with queue := s.queue.push raddr}⟩

/-- The text copied to a result buffer; a buffer of one byte or none stays as
it is. -/
def copyResult (buflen : ℤ) (hostname : List Char) : Option (List Char) :=
  if buflen>1 then some (hostname.take (buflen-1).toNat) else none

/-- `resolve`: the text written to the result buffer, whether a signal has to
follow, and the state. -/
def resolve (inetNtop : AddressFamily→In6Addr→List Char) (o : OptionsT) (af : AddressFamily)
    (addr : In6Addr) (buflen : ℤ) (s : ResolverState) : Option (List Char)×Bool×ResolverState :=
  if o.dnsresolution then
    let report := resolveLocked inetNtop (AddrStorage.make af addr) s
    (copyResult buflen report.hostname,report.added,report.state)
  else (none,false,s)

/-- A worker takes the address at `tail`. -/
def takeAddress (s : ResolverState) : Option AddrStorage×ResolverState :=
  (s.queue.slots s.queue.tail,{s with queue := s.queue.pop})

/-- A worker stores an answer: it replaces the text of the address, or adds the
address again when it was evicted in the meantime. -/
def storeName (addr : AddrStorage) (hostname : Option (List Char)) (s : ResolverState) : ResolverState :=
  match hostname with
  | none => s
  | some name =>
    let s :=
      match hashFind s.nsHash addr with
      | some _ => {s with nsHash := hashDelete s.nsHash addr}
      | none => {s with nsHashNEntries := s.nsHashNEntries+1}
    nsHashInsert addr name s

/-- Keys of the cache. -/
def cached (s : ResolverState) : List AddrStorage := s.nsHash.nodes.map Node.key

variable {s : ResolverState} {raddr : AddrStorage}

/-- A lookup fails exactly on addresses that are not cached. -/
theorem hashFind_none_iff : hashFind s.nsHash raddr=none ↔ raddr∉cached s := by
  rw [hashFind,Option.map_eq_none_iff,find_eq,List.find?_eq_none,cached]
  have hc (n : Node AddrStorage (List Char)) :
      nsHashSpec.compare n.key raddr=true ↔ n.key=raddr := nsHashCompare_iff _ _
  simp only [hc,List.mem_map,not_exists,not_and]

/-- Inserting a name adds one node to those of the cache. -/
theorem nodes_insert (raddr : AddrStorage) (hostname : List Char) (s : ResolverState) :
    (nsHashInsert raddr hostname s).nsHash.nodes.Perm
      (⟨s.nodeBrk,raddr,hostname,nsHashHash raddr⟩::s.nsHash.nodes) :=
  nodes_push s.nsHash s.nodeBrk raddr hostname

/-- Deletion of a cached address removes its node. -/
theorem nodes_delete (h : raddr∈cached s) :
    ∃ n∈s.nsHash.nodes,n.key=raddr ∧
      s.nsHash.nodes.Perm (n::(hashDelete s.nsHash raddr).nodes) := by
  have hc (n : Node AddrStorage (List Char)) :
      nsHashSpec.compare n.key raddr=true ↔ n.key=raddr := nsHashCompare_iff _ _
  have hne : s.nsHash.find raddr≠none := by
    have hf := (not_congr hashFind_none_iff).mpr (not_not.mpr h)
    rwa [hashFind,Option.map_eq_none_iff] at hf
  obtain ⟨m,hm⟩ := Option.ne_none_iff_exists'.mp hne
  have hd : hashDelete s.nsHash raddr=
      s.nsHash.unlink (nsHashSpec.hash raddr) fun n => nsHashSpec.compare n.key raddr := by
    simp only [hashDelete,hm]
  have hb : ∀ n∈s.nsHash.nodes,nsHashSpec.compare n.key raddr=true→
      n.bucket=nsHashSpec.hash raddr := by
    intro n hn he
    rw [(mem_chain hn).2.2,(hc n).mp he]
  rw [hd,nodes_unlink s.nsHash (nsHashSpec.hash_lt raddr) hb]
  obtain ⟨k,hk,he⟩ := List.mem_map.mp h
  obtain ⟨n,xs,ys,-,hn,hsplit,herase⟩ := List.exists_of_eraseP
    (p:=fun n => nsHashSpec.compare n.key raddr) hk ((hc k).mpr he)
  rw [herase,hsplit]
  exact ⟨n,by simp,(hc n).mp hn,List.perm_middle⟩

/-- Eviction empties the cache or finds room in it; the queue stays. -/
theorem evict_cases (maxEntries : ℕ) (s : ResolverState) :
    (nsHashEvictIfFull maxEntries s).queue=s.queue ∧
      ((nsHashEvictIfFull maxEntries s).nsHash.nodes=[] ∧
          (nsHashEvictIfFull maxEntries s).nsHashNEntries=0 ∨
        nsHashEvictIfFull maxEntries s=s ∧ s.nsHashNEntries < maxEntries) := by
  unfold nsHashEvictIfFull
  split
  · exact ⟨rfl,.inl ⟨nodes_empty,rfl⟩⟩
  · exact ⟨rfl,.inr ⟨rfl,by omega⟩⟩

section Locked

variable (inetNtop : AddressFamily→In6Addr→List Char)

/-- For an address that is cached `resolve` queues nothing and leaves the state as it is. -/
theorem resolveLocked_cached (h : raddr∈cached s) :
    (resolveLocked inetNtop raddr s).added=false ∧ (resolveLocked inetNtop raddr s).state=s := by
  have hf := (not_congr hashFind_none_iff).mpr (not_not.mpr h)
  obtain ⟨hostname,hn⟩ := Option.ne_none_iff_exists'.mp hf
  simp only [resolveLocked,hn]
  exact ⟨trivial,trivial⟩

/-- A new address is cached in numeric form, after an eviction if need be, and
queued if there is room for it and it may have a name. -/
theorem resolveLocked_new (h : raddr∉cached s) :
    let s₁ := nsHashEvictIfFull nsHashMaxEntries s
    let r := resolveLocked inetNtop raddr s
    r.state.nsHash.nodes.Perm
        (⟨s₁.nodeBrk,raddr,inetNtop raddr.addressFamily raddr.addr,nsHashHash raddr⟩::
          s₁.nsHash.nodes) ∧
      r.state.nsHashNEntries=s₁.nsHashNEntries+1 ∧
      (r.added=false ∧ r.state.queue=s.queue ∨
        r.added=true ∧ ¬s.queue.Full ∧ staysNumerical raddr=false ∧
          r.state.queue=s.queue.push raddr) := by
  intro s₁ r
  have hq : s₁.queue=s.queue := (evict_cases nsHashMaxEntries s).1
  have hnodes := nodes_insert raddr (inetNtop raddr.addressFamily raddr.addr) s₁
  have hr : r=resolveLocked inetNtop raddr s := rfl
  simp only [resolveLocked,hashFind_none_iff.mpr h] at hr
  have hqs : (nsHashInsert raddr (inetNtop raddr.addressFamily raddr.addr) s₁).queue=s.queue := hq
  split at hr
  · rw [hr]
    exact ⟨hnodes,rfl,.inl ⟨rfl,hq⟩⟩
  · rename_i hfull
    change ¬(nsHashInsert raddr _ s₁).queue.Full at hfull
    rw [hqs] at hfull
    split at hr
    · rw [hr]
      exact ⟨hnodes,rfl,.inl ⟨rfl,hq⟩⟩
    · rename_i hnum
      rw [hr]
      refine ⟨hnodes,rfl,.inr ⟨rfl,hfull,by simpa using hnum,?_⟩⟩
      change s₁.queue.push raddr=_
      rw [hq]

end Locked

/-- Storing an answer does not touch the queue. -/
theorem storeName_queue (addr : AddrStorage) (hostname : Option (List Char)) (s : ResolverState) :
    (storeName addr hostname s).queue=s.queue := by
  unfold storeName
  cases hostname with
  | none => rfl
  | some name => cases hashFind s.nsHash addr <;> rfl

/-- An answer for a cached address replaces its node. -/
theorem storeName_cached (h : raddr∈cached s) (name : List Char) :
    ∃ n rest node,n.key=raddr ∧ s.nsHash.nodes.Perm (n::rest) ∧
      (storeName raddr (some name) s).nsHash.nodes.Perm (⟨node,raddr,name,nsHashHash raddr⟩::rest) ∧
      (storeName raddr (some name) s).nsHashNEntries=s.nsHashNEntries := by
  have hf := (not_congr hashFind_none_iff).mpr (not_not.mpr h)
  obtain ⟨old,ho⟩ := Option.ne_none_iff_exists'.mp hf
  obtain ⟨n,-,hk,hp⟩ := nodes_delete h
  refine ⟨n,_,s.nodeBrk,hk,hp,?_,?_⟩
  · simp only [storeName,ho]
    exact nodes_insert raddr name {s with nsHash := hashDelete s.nsHash raddr}
  · simp only [storeName,ho]
    rfl

/-- An answer for an address that is no longer cached adds a node. -/
theorem storeName_evicted (h : raddr∉cached s) (name : List Char) :
    (storeName raddr (some name) s).nsHash.nodes.Perm
        (⟨s.nodeBrk,raddr,name,nsHashHash raddr⟩::s.nsHash.nodes) ∧
      (storeName raddr (some name) s).nsHashNEntries=s.nsHashNEntries+1 := by
  simp only [storeName,hashFind_none_iff.mpr h]
  exact ⟨nodes_insert raddr name {s with nsHashNEntries := s.nsHashNEntries+1},rfl⟩

end IftopColor.Resolver
