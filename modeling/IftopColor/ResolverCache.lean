import IftopColor.Resolver

/-!
# Any interleaving of callers and workers

Two workers each hold at most one address. Three kinds of atomic steps change
the resolver: a call of `resolve`, a worker taking an address, a worker storing
what the name service answered. History variables record which addresses
entered and left the queue and which names came back for which address.

An eviction empties the cache while addresses are still outstanding. What bounds
the cache is the number of entries together with the number of outstanding
addresses that are not cached: only their answers can add entries without an
eviction check.
-/

namespace IftopColor.ResolverCache

open ChainTable AddrHash Options PacketDirection RingQueue Resolver

/-- The resolver, its workers and what happened so far. -/
structure System where
  /-- Globals of the resolver. -/
  resolver : ResolverState
  /-- Address that each worker is asking for. -/
  workers : Fin 2→Option AddrStorage
  /-- Addresses written to the queue so far. -/
  entered : List AddrStorage
  /-- Addresses taken off the queue so far. -/
  left : List AddrStorage
  /-- Names that came back so far. -/
  answers : List (AddrStorage×List Char)

/-- State after `resolver_initialise`. -/
def initSystem : System := ⟨resolverInitialise,fun _ => none,[],[],[]⟩

/-- Atomic steps. -/
inductive Step where
  | resolve (o : OptionsT) (af : AddressFamily) (addr : In6Addr) (buflen : ℤ)
  | take (w : Fin 2)
  | store (w : Fin 2) (hostname : Option (List Char))

variable (inetNtop : AddressFamily→In6Addr→List Char)

/-- The effect of a step; a step that is not enabled does nothing. -/
def stepSystem (s : System) : Step→System
  | .resolve o af addr buflen =>
    let (_,added,resolver) := resolve inetNtop o af addr buflen s.resolver
    {s with
      resolver := resolver
      entered := if added then s.entered++[AddrStorage.make af addr] else s.entered}
  | .take w =>
    if s.workers w=none ∧ s.resolver.queue.head≠s.resolver.queue.tail then
      match takeAddress s.resolver with
      | (none,_) => s
      | (some addr,resolver) =>
        {s with
          resolver := resolver
          workers := Function.update s.workers w (some addr)
          left := s.left++[addr]}
    else s
  | .store w hostname =>
    match s.workers w with
    | none => s
    | some addr =>
      {s with
        resolver := storeName addr hostname s.resolver
        workers := Function.update s.workers w none
        answers := s.answers++(hostname.map fun name => (addr,name)).toList}

/-- The state after a sequence of steps. -/
def runSystem (es : List Step) : System := es.foldl (stepSystem inetNtop) initSystem

/-- Addresses with the workers. -/
def inFlight (workers : Fin 2→Option AddrStorage) : List AddrStorage :=
  (List.finRange 2).flatMap fun w => (workers w).toList

/-- Number of addresses of a list that are not cached. -/
def missing (s : ResolverState) (as : List AddrStorage) : ℕ :=
  (as.filter fun a => a∉cached s).length

/-- The record of a node is the numeric form of its key or a name that came
back for it. -/
def Explained (answers : List (AddrStorage×List Char)) (n : Node AddrStorage (List Char)) : Prop :=
  n.record=inetNtop n.key.addressFamily n.key.addr ∨ (n.key,n.record)∈answers

/-- The invariant, for the list of addresses waiting in the queue. -/
structure Inv (s : System) (waiting : List AddrStorage) : Prop where
  /-- The counter counts the nodes. -/
  count : s.resolver.nsHashNEntries=s.resolver.nsHash.nodes.length
  /-- No address is cached twice. -/
  nodup : (cached s.resolver).Nodup
  /-- Where the texts come from. -/
  records : ∀ n∈s.resolver.nsHash.nodes,Explained inetNtop s.answers n
  /-- The ring holds the addresses that wait. -/
  queue : s.resolver.queue.content=waiting.map some
  /-- Addresses leave in the order they entered. -/
  order : s.entered=s.left++waiting
  /-- Addresses that stay numerical are never queued. -/
  named : ∀ a∈s.entered,staysNumerical a=false
  /-- Answers that are still out cannot push the cache past its bound. -/
  bound : s.resolver.nsHashNEntries+missing s.resolver (waiting++inFlight s.workers)≤
    nsHashMaxEntries+21

section Missing

variable {s s' : ResolverState} {as bs : List AddrStorage}

/-- Caching more addresses leaves fewer missing. -/
theorem missing_le (h : ∀ a∈cached s,a∈cached s') (as : List AddrStorage) :
    missing s' as ≤ missing s as := by
  unfold missing
  refine (List.monotone_filter_right as ?_).length_le
  intro a ha
  simp only [decide_eq_true_eq] at ha ⊢
  exact fun hm => ha (h a hm)

/-- The order of the addresses does not matter. -/
theorem missing_perm (s : ResolverState) (h : as.Perm bs) : missing s as=missing s bs :=
  (h.filter _).length_eq

/-- One more address counts if it is not cached. -/
theorem missing_cons (s : ResolverState) (a : AddrStorage) (as : List AddrStorage) :
    missing s (a::as)=missing s as+if a∈cached s then 0 else 1 := by
  by_cases h : a∈cached s <;> simp [missing,h]

/-- At most all addresses are missing. -/
theorem missing_le_length (s : ResolverState) (as : List AddrStorage) : missing s as≤as.length :=
  List.length_filter_le ..

end Missing

/-- The addresses with the workers are those of the first one and those of the second one. -/
theorem inFlight_eq (workers : Fin 2→Option AddrStorage) :
    inFlight workers=(workers 0).toList++(workers 1).toList := by
  rw [inFlight,List.finRange_succ,List.finRange_succ,List.finRange_zero]
  simp

/-- At most two addresses are with the workers. -/
theorem length_inFlight_le (workers : Fin 2→Option AddrStorage) : (inFlight workers).length≤2 := by
  rw [inFlight_eq]
  cases workers 0 <;> cases workers 1 <;> simp

/-- A free worker that takes an address. -/
theorem inFlight_take {workers : Fin 2→Option AddrStorage} {w : Fin 2} (h : workers w=none)
    (a : AddrStorage) :
    (inFlight (Function.update workers w (some a))).Perm (a::inFlight workers) := by
  rw [inFlight_eq,inFlight_eq]
  match w with
  | 0 => simp [h]
  | 1 =>
    simp only [Function.update_self,ne_eq,Fin.zero_eq_one_iff,OfNat.ofNat_ne_one,not_false_eq_true,
      Function.update_of_ne,h,Option.toList_none,List.append_nil,Option.toList_some]
    exact List.perm_append_singleton a _

/-- A worker that is done with its address. -/
theorem inFlight_store {workers : Fin 2→Option AddrStorage} {w : Fin 2} {a : AddrStorage}
    (h : workers w=some a) :
    (inFlight workers).Perm (a::inFlight (Function.update workers w none)) := by
  have hu : workers=Function.update (Function.update workers w none) w (some a) := by
    rw [Function.update_idem,←h,Function.update_eq_self]
  conv_lhs => rw [hu]
  exact inFlight_take (Function.update_self ..) a

/-- A new node over nodes with other keys. -/
theorem inserted {nodes rest : List (Node AddrStorage (List Char))}
    {new : Node AddrStorage (List Char)} (hp : nodes.Perm (new::rest))
    (hn : (rest.map Node.key).Nodup) (hk : new.key∉rest.map Node.key) :
    (nodes.map Node.key).Nodup ∧ nodes.length=rest.length+1 ∧ ∀ n∈nodes,n=new ∨ n∈rest :=
  ⟨(hp.map Node.key).nodup_iff.mpr (List.nodup_cons.mpr ⟨hk,hn⟩),hp.length_eq,
    fun _ hm => List.mem_cons.mp (hp.subset hm)⟩

variable {inetNtop} {s : System} {waiting : List AddrStorage}

/-- At most nineteen addresses wait in the queue of twenty slots. -/
theorem Inv.length_waiting (h : Inv inetNtop s waiting) : waiting.length≤19 := by
  have hl : s.resolver.queue.length<20 := length_lt s.resolver.queue
  rw [←length_content,h.queue,List.length_map] at hl
  omega

/-- An address that is not cached is entered in numeric form; after that the
outstanding addresses still have room. -/
theorem resolveLocked_inv (h : Inv inetNtop s waiting) {raddr : AddrStorage}
    (hc : raddr∉cached s.resolver) :
    let r := (resolveLocked inetNtop raddr s.resolver).state
    r.nsHashNEntries=r.nsHash.nodes.length ∧ (cached r).Nodup ∧
      (∀ n∈r.nsHash.nodes,Explained inetNtop s.answers n) ∧ raddr∈cached r ∧
      r.nsHashNEntries+missing r (waiting++inFlight s.workers)≤nsHashMaxEntries+21 := by
  obtain ⟨hp,hn,-⟩ := resolveLocked_new inetNtop hc
  obtain ⟨-,hev⟩ := evict_cases nsHashMaxEntries s.resolver
  generalize nsHashEvictIfFull nsHashMaxEntries s.resolver=s₁ at hp hn hev
  generalize (resolveLocked inetNtop raddr s.resolver).state=r at hp hn ⊢
  -- what is left after the eviction is part of what was there, and leaves room
  have hsub : ∀ n∈s₁.nsHash.nodes,n∈s.resolver.nsHash.nodes := by
    rcases hev with ⟨he,-⟩|⟨rfl,-⟩
    · simp [he]
    · exact fun n hm => hm
  have hcount : s₁.nsHashNEntries=s₁.nsHash.nodes.length ∧ s₁.nsHashNEntries<nsHashMaxEntries ∧
      (s₁.nsHash.nodes.map Node.key).Nodup := by
    rcases hev with ⟨he,h0⟩|⟨rfl,hlt⟩
    · rw [he,h0]
      exact ⟨rfl,by decide,List.nodup_nil⟩
    · exact ⟨h.count,hlt,h.nodup⟩
  have hk : raddr∉s₁.nsHash.nodes.map Node.key := by
    intro hm
    obtain ⟨n,hn,rfl⟩ := List.mem_map.mp hm
    exact hc (List.mem_map_of_mem (hsub n hn))
  obtain ⟨hnodup,hlen,hmem⟩ := inserted hp hcount.2.2 hk
  refine ⟨by omega,hnodup,?_,(hp.map Node.key).symm.subset (List.mem_cons_self ..),?_⟩
  · intro n hn
    rcases hmem n hn with rfl|hn
    · exact .inl rfl
    · exact h.records n (hsub n hn)
  · have h1 := missing_le_length r (waiting++inFlight s.workers)
    have h2 := length_inFlight_le s.workers
    have h3 := h.length_waiting
    rw [List.length_append] at h1
    omega

/-- A call of `resolve` keeps the invariant. -/
theorem resolve_inv (h : Inv inetNtop s waiting) (o : OptionsT) (af : AddressFamily)
    (addr : In6Addr) (buflen : ℤ) :
    ∃ waiting',Inv inetNtop (stepSystem inetNtop s (.resolve o af addr buflen)) waiting' := by
  cases hd : o.dnsresolution with
  | false =>
    simp only [stepSystem,resolve,hd]
    exact ⟨waiting,h⟩
  | true =>
    simp only [stepSystem,resolve,hd,if_true]
    generalize AddrStorage.make af addr=raddr
    by_cases hc : raddr∈cached s.resolver
    · obtain ⟨hadd,hst⟩ := resolveLocked_cached inetNtop hc
      rw [hadd,hst]
      exact ⟨waiting,h⟩
    · obtain ⟨hcount,hnodup,hrec,hcached,hroom⟩ := resolveLocked_inv h hc
      obtain ⟨-,-,hq⟩ := resolveLocked_new inetNtop hc
      generalize resolveLocked inetNtop raddr s.resolver=r at hcount hnodup hrec hcached hroom hq ⊢
      rcases hq with ⟨hadd,hq⟩|⟨hadd,hfull,hnum,hq⟩
      · rw [hadd]
        exact ⟨waiting,hcount,hnodup,hrec,hq ▸ h.queue,h.order,h.named,hroom⟩
      · rw [hadd]
        refine ⟨waiting++[raddr],hcount,hnodup,hrec,?_,?_,?_,?_⟩
        · change r.state.queue.content=_
          rw [hq,content_push raddr hfull,h.queue,List.map_append]
          rfl
        · change s.entered++[raddr]=s.left++(waiting++[raddr])
          rw [h.order,List.append_assoc]
        · intro a ha
          rcases List.mem_append.mp ha with ha|ha
          · exact h.named a ha
          · rw [List.mem_singleton.mp ha]
            exact hnum
        · have hperm : (waiting++[raddr]++inFlight s.workers).Perm
              (raddr::(waiting++inFlight s.workers)) := by
            rw [List.append_assoc,List.singleton_append]
            exact List.perm_middle
          change r.state.nsHashNEntries+missing r.state _≤_
          rw [missing_perm _ hperm,missing_cons,if_pos hcached]
          exact hroom

/-- A worker that takes an address keeps the invariant. -/
theorem take_inv (h : Inv inetNtop s waiting) (w : Fin 2) :
    ∃ waiting',Inv inetNtop (stepSystem inetNtop s (.take w)) waiting' := by
  unfold stepSystem
  dsimp only
  split
  · rename_i hen
    obtain ⟨hw,hne⟩ := hen
    have hpop := content_pop hne
    rw [h.queue] at hpop
    cases waiting with
    | nil => simp at hpop
    | cons a waiting =>
      rw [List.map_cons,List.cons.injEq] at hpop
      obtain ⟨ha,hpop⟩ := hpop
      simp only [takeAddress,←ha]
      refine ⟨waiting,h.count,h.nodup,h.records,hpop.symm,?_,h.named,?_⟩
      · change s.entered=s.left++[a]++waiting
        rw [h.order,List.append_assoc]
        rfl
      · have hperm : (waiting++inFlight (Function.update s.workers w (some a))).Perm
            (a::waiting++inFlight s.workers) :=
          ((inFlight_take hw a).append_left waiting).trans List.perm_middle
        change s.resolver.nsHashNEntries+missing s.resolver _≤_
        rw [missing_perm _ hperm]
        exact h.bound
  · exact ⟨waiting,h⟩

/-- Room for the answer of a worker is left if its address is not cached. -/
theorem Inv.bound_store (h : Inv inetNtop s waiting) {w : Fin 2} {addr : AddrStorage}
    (hw : s.workers w=some addr) :
    s.resolver.nsHashNEntries+
      (missing s.resolver (waiting++inFlight (Function.update s.workers w none))+
        if addr∈cached s.resolver then 0 else 1)≤nsHashMaxEntries+21 := by
  have hperm : (waiting++inFlight s.workers).Perm
      (addr::(waiting++inFlight (Function.update s.workers w none))) :=
    ((inFlight_store hw).append_left waiting).trans List.perm_middle
  rw [←missing_cons,←missing_perm _ hperm]
  exact h.bound

/-- An answer explains its own record and leaves the others explained. -/
theorem Inv.explained_store (h : Inv inetNtop s waiting)
    {rest : List (Node AddrStorage (List Char))} (hsub : ∀ n∈rest,n∈s.resolver.nsHash.nodes)
    (addr : AddrStorage) (name : List Char) (node : ℕ) :
    ∀ n∈(⟨node,addr,name,nsHashHash addr⟩ : Node AddrStorage (List Char))::rest,
      Explained inetNtop (s.answers++[(addr,name)]) n := by
  refine List.forall_mem_cons.mpr ⟨.inr (by simp),fun n hn => ?_⟩
  exact (h.records n (hsub n hn)).imp_right (List.mem_append_left _)

/-- A worker stores an answer: the cache keeps its addresses, and has one record more at most,
and that only for a new address. -/
theorem Inv.stored (h : Inv inetNtop s waiting) {w : Fin 2} {addr : AddrStorage}
    (hw : s.workers w=some addr) {hostname : Option (List Char)} {r : ResolverState}
    (hr : storeName addr hostname s.resolver=r) (hcount : r.nsHashNEntries=r.nsHash.nodes.length)
    (hnodup : (cached r).Nodup)
    (hrec : ∀ n∈r.nsHash.nodes,
      Explained inetNtop (s.answers++(hostname.map fun name => (addr,name)).toList) n)
    (hkeep : ∀ a∈cached s.resolver,a∈cached r)
    (hentries : r.nsHashNEntries≤
      s.resolver.nsHashNEntries+if addr∈cached s.resolver then 0 else 1) :
    Inv inetNtop (stepSystem inetNtop s (.store w hostname)) waiting := by
  have hqueue : r.queue.content=waiting.map some := by
    rw [←hr,storeName_queue]
    exact h.queue
  have hbound := h.bound_store hw
  have hle := missing_le hkeep (waiting++inFlight (Function.update s.workers w none))
  simp only [stepSystem,hw,hr]
  refine ⟨hcount,hnodup,hrec,hqueue,h.order,h.named,?_⟩
  dsimp only
  omega

/-- A worker that stores an answer keeps the invariant. -/
theorem store_inv (h : Inv inetNtop s waiting) (w : Fin 2) (hostname : Option (List Char)) :
    Inv inetNtop (stepSystem inetNtop s (.store w hostname)) waiting := by
  cases hw : s.workers w with
  | none =>
    simp only [stepSystem,hw]
    exact h
  | some addr =>
    cases hostname with
    | none =>
      refine h.stored hw rfl h.count h.nodup ?_ (fun a ha => ha) (Nat.le_add_right _ _)
      intro n hn
      exact (h.records n hn).imp_right (List.mem_append_left _)
    | some name =>
      by_cases hc : addr∈cached s.resolver
      · obtain ⟨n,rest,node,hk,hold,hnew,hcnt⟩ := storeName_cached hc name
        have hkeys : (cached (storeName addr (some name) s.resolver)).Perm (cached s.resolver) := by
          have h1 := hnew.map Node.key
          have h2 := hold.map Node.key
          rw [List.map_cons,hk] at h2
          exact h1.trans h2.symm
        refine h.stored hw rfl ?_ (hkeys.nodup_iff.mpr h.nodup) ?_
          (fun a ha => hkeys.symm.subset ha) (hcnt.le.trans (Nat.le_add_right _ _))
        · rw [hcnt,h.count,hold.length_eq,hnew.length_eq]
          rfl
        · intro m hm
          exact h.explained_store (fun x hx => hold.symm.subset (List.mem_cons_of_mem _ hx)) addr
            name node m (hnew.subset hm)
      · obtain ⟨hnew,hcnt⟩ := storeName_evicted hc name
        obtain ⟨hnodup,hlen,-⟩ := inserted hnew h.nodup hc
        refine h.stored hw rfl ?_ hnodup ?_
          (fun a ha => (hnew.map Node.key).symm.subset (List.mem_cons_of_mem _ ha)) ?_
        · rw [hcnt,h.count]
          exact hlen.symm
        · intro m hm
          exact h.explained_store (fun x hx => hx) addr name _ m (hnew.subset hm)
        · rw [hcnt,if_neg hc]

/-- Every step keeps the invariant. -/
theorem step_inv (h : Inv inetNtop s waiting) (e : Step) :
    ∃ waiting',Inv inetNtop (stepSystem inetNtop s e) waiting' := by
  cases e with
  | resolve o af addr buflen => exact resolve_inv h o af addr buflen
  | take w => exact take_inv h w
  | store w hostname => exact ⟨waiting,store_inv h w hostname⟩

/-- The invariant holds at the start. -/
theorem init_inv : Inv inetNtop initSystem [] where
  count := by simp [initSystem,resolverInitialise]
  nodup := by simp [cached,initSystem,resolverInitialise]
  records := by simp [initSystem,resolverInitialise]
  queue := content_empty (by decide)
  order := rfl
  named := by simp [initSystem]
  bound := by decide

variable (inetNtop)

/-- Every run keeps the invariant. -/
theorem run_inv (es : List Step) : ∃ waiting,Inv inetNtop (runSystem inetNtop es) waiting := by
  have hrun (s : System) (h : ∃ waiting,Inv inetNtop s waiting) :
      ∃ waiting,Inv inetNtop (es.foldl (stepSystem inetNtop) s) waiting := by
    induction es generalizing s with
    | nil => exact h
    | cons e es ih =>
      obtain ⟨waiting,h⟩ := h
      exact ih _ (step_inv h e)
  exact hrun initSystem ⟨[],init_inv⟩

/-- After any interleaving: the counter is the number of cached addresses, none
is cached twice, every text is a numeric form or an answer for that address,
the indices are in the ring, addresses leave the queue in the order they
entered it, numerical ones never enter, and the cache stays bounded. -/
theorem resolver_cache_invariant (es : List Step) :
    let s := runSystem inetNtop es
    s.resolver.nsHashNEntries=s.resolver.nsHash.nodes.length ∧
      (s.resolver.nsHash.nodes.map Node.key).Nodup ∧
      (∀ n∈s.resolver.nsHash.nodes,Explained inetNtop s.answers n) ∧
      s.resolver.queue.head < resolveQueueLength ∧ s.resolver.queue.tail < resolveQueueLength ∧
      (∃ waiting,s.resolver.queue.content=waiting.map some ∧ s.entered=s.left++waiting) ∧
      (∀ a∈s.entered,staysNumerical a=false) ∧
      s.resolver.nsHashNEntries≤nsHashMaxEntries+21 := by
  intro s
  obtain ⟨waiting,h⟩ := run_inv inetNtop es
  exact ⟨h.count,h.nodup,h.records,s.resolver.queue.head_lt,s.resolver.queue.tail_lt,
    ⟨waiting,h.queue,h.order⟩,h.named,(Nat.le_add_right ..).trans h.bound⟩

end IftopColor.ResolverCache
