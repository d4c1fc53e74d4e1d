import IftopColor.PacketDirection

/-!
# Which process a flow is attributed to

The owner of a flow is the process of the socket at its local endpoint: of a
socket with exactly that address, or failing that of a socket of the same family
bound to no address. The scan takes the first entry that matches in either way,
and a scan without a match is repeated for the remote endpoint.

The tables for which every order of their entries leads to the owner are
characterised exactly.
-/

namespace IftopColor.ProcOwner

open NetBytes AddrHash Options ProcInfo PacketDirection

/-- An endpoint address, with an IPv4-mapped IPv6 address taken as the IPv4
address in it. -/
def canonical (af : AddressFamily) (addr : In6Addr) : AddressFamily×In6Addr :=
  match af with
  | .inet => (.inet,in6OfIn (inOfIn6 addr))
  | .inet6 => if in6Head addr=v4mappedPrefix then (.inet,in6OfIn (in6Tail addr)) else (.inet6,addr)
  | .unspec => (.unspec,addr)

/-- The entry is a socket at the local endpoint of the flow. -/
def Exact (e : SockEntry) (ap : AddrPair) : Prop :=
  e.protocol=ap.protocol ∧ e.port=ap.srcPort ∧
    canonical e.af e.addr=canonical ap.addressFamily ap.src6

/-- The entry's address is the unspecified one of its family. -/
def Unspecified (e : SockEntry) : Prop :=
  (e.af=.inet ∧ inOfIn6 e.addr=fun _ => 0) ∨ (e.af=.inet6 ∧ e.addr=fun _ => 0)

/-- The entry is a socket on the local port of the flow, bound to no address. -/
def Wildcard (e : SockEntry) (ap : AddrPair) : Prop :=
  e.protocol=ap.protocol ∧ e.port=ap.srcPort ∧ e.af=ap.addressFamily ∧ Unspecified e

/-- The flow gets the process of an exact entry, or without one that of a
wildcard entry, or without either no process. -/
def AttributedToOwner (t : List SockEntry) (ap : AddrPair) : Prop :=
  ((∃ e∈t,Exact e ap)→∃ pe,lookupFlow t ap=some pe ∧ ∃ e∈t,Exact e ap ∧ e.pid=pe.pid) ∧
    ((¬∃ e∈t,Exact e ap)→(∃ e∈t,Wildcard e ap)→
      ∃ pe,lookupFlow t ap=some pe ∧ ∃ e∈t,Wildcard e ap ∧ e.pid=pe.pid) ∧
    ((¬∃ e∈t,Exact e ap)→(¬∃ e∈t,Wildcard e ap)→lookupFlow t ap=none)

/-- The scan for the local endpoint accepts the entry. -/
def matchesSrc (ap : AddrPair) (e : SockEntry) : Bool :=
  entryMatches e ap.addressFamily ap.src6 ap.srcPort ap.protocol

/-- The scan for the remote endpoint accepts the entry. -/
def matchesDst (ap : AddrPair) (e : SockEntry) : Bool :=
  entryMatches e ap.addressFamily ap.dst6 ap.dstPort ap.protocol

/-- Entries that the lookup of the flow may return. -/
def candidates (t : List SockEntry) (ap : AddrPair) : List SockEntry :=
  if t.filter (matchesSrc ap)=[] then t.filter (matchesDst ap) else t.filter (matchesSrc ap)

/-- With an exact entry in the table, there are candidates and all of them have
the process of an exact entry; with neither an exact nor a wildcard entry, none
matches the remote endpoint. -/
def OwnersOnly (t : List SockEntry) (ap : AddrPair) : Prop :=
  ((∃ e∈t,Exact e ap)→candidates t ap≠[] ∧ ∀ c∈candidates t ap,∃ e∈t,Exact e ap ∧ e.pid=c.pid) ∧
    ((¬∃ e∈t,Exact e ap)→(¬∃ e∈t,Wildcard e ap)→t.filter (matchesDst ap)=[])

variable {t t' : List SockEntry} {ap : AddrPair} {e : SockEntry}

/-- The unspecified IPv4 address is zero as a number. -/
theorem sAddr_eq_zero_iff (a : InAddr) : sAddr a=0 ↔ a=fun _ => 0 := by
  have hz : sAddr (fun _ => 0)=0 := by decide
  constructor
  · intro h
    exact sAddr_injective (h.trans hz.symm)
  · rintro rfl
    exact hz

/-- An IPv4 address stored in the union is read back. -/
theorem canonical_inet (addr : In6Addr) : canonical .inet addr=(.inet,in6OfIn (inOfIn6 addr)) := rfl

/-- The scan accepts only exact and wildcard entries. -/
theorem exact_or_wildcard (h : matchesSrc ap e=true) : Exact e ap ∨ Wildcard e ap := by
  unfold matchesSrc entryMatches at h
  split at h
  · simp at h
  · rename_i hpp
    simp only [not_or,not_not] at hpp
    obtain ⟨hport,hproto⟩ := hpp
    split at h
    · rename_i hc
      obtain ⟨haf,hin,ha|ha⟩ := hc
      · refine .inl ⟨hproto,hport,?_⟩
        rw [haf,hin,canonical,canonical,ha]
      · exact .inr ⟨hproto,hport,haf,.inl ⟨haf.trans hin,(sAddr_eq_zero_iff _).mp ha⟩⟩
    · split at h
      · rename_i hc
        obtain ⟨haf,hin,ha|ha⟩ := hc
        · refine .inl ⟨hproto,hport,?_⟩
          rw [haf,ha]
        · exact .inr ⟨hproto,hport,haf,.inr ⟨haf.trans hin,ha⟩⟩
      · obtain ⟨hin,he6,hmap,htail⟩ := of_decide_eq_true h
        refine .inl ⟨hproto,hport,?_⟩
        rw [he6,hin,canonical_inet]
        simp only [canonical,hmap,if_true,htail]

/-- The scan accepts every wildcard entry. -/
theorem matchesSrc_of_wildcard (h : Wildcard e ap) : matchesSrc ap e=true := by
  obtain ⟨hproto,hport,haf,hu⟩ := h
  unfold matchesSrc entryMatches
  rw [if_neg (by simp [hproto,hport])]
  rcases hu with ⟨hin,hz⟩|⟨hin,hz⟩
  · rw [if_pos ⟨haf,haf ▸ hin,.inr ((sAddr_eq_zero_iff _).mpr hz)⟩]
  · have h6 : ap.addressFamily=.inet6 := haf ▸ hin
    rw [if_neg (by simp [h6]),if_pos ⟨haf,h6,.inr hz⟩]

/-- The process of an entry. -/
def owner (e : SockEntry) : ProcEntry := ⟨e.pid,e.name⟩

/-- The lookup takes the first entry for the local endpoint, else the first one
for the remote endpoint. -/
theorem lookupFlow_eq (hf : ap.addressFamily≠.unspec) (t : List SockEntry) :
    lookupFlow t ap=((t.find? (matchesSrc ap)).or (t.find? (matchesDst ap))).map owner := by
  rw [Option.map_or]
  unfold lookupFlow procinfoLookup tableFind matchesSrc matchesDst
  cases hap : ap.addressFamily with
  | unspec => exact absurd hap hf
  | inet => rfl
  | inet6 => rfl

/-- What the lookup returns is a candidate, and it returns something when there
is one. -/
theorem lookup_candidate (hf : ap.addressFamily≠.unspec) (t : List SockEntry) :
    (candidates t ap=[] ∧ lookupFlow t ap=none) ∨
      ∃ c∈candidates t ap,lookupFlow t ap=some (owner c) := by
  rw [lookupFlow_eq hf,candidates]
  cases hs : t.find? (matchesSrc ap) with
  | some c =>
    have hc : c∈t.filter (matchesSrc ap) :=
      List.mem_filter.mpr ⟨List.mem_of_find?_eq_some hs,List.find?_some hs⟩
    rw [if_neg (List.ne_nil_of_mem hc)]
    exact .inr ⟨c,hc,rfl⟩
  | none =>
    have hnil : t.filter (matchesSrc ap)=[] := by
      rw [List.filter_eq_nil_iff]
      exact List.find?_eq_none.mp hs
    rw [if_pos hnil]
    cases hd : t.find? (matchesDst ap) with
    | some c =>
      exact .inr ⟨c,List.mem_filter.mpr ⟨List.mem_of_find?_eq_some hd,List.find?_some hd⟩,rfl⟩
    | none =>
      refine .inl ⟨?_,rfl⟩
      rw [List.filter_eq_nil_iff]
      exact List.find?_eq_none.mp hd

/-- Every candidate is what the lookup returns, in a suitable order. -/
theorem exists_order (hf : ap.addressFamily≠.unspec) {c : SockEntry} (hc : c∈candidates t ap) :
    ∃ t',t'.Perm t ∧ lookupFlow t' ap=some (owner c) := by
  have hct : c∈t := by
    unfold candidates at hc
    split at hc <;> exact List.mem_of_mem_filter hc
  obtain ⟨before,after,rfl⟩ := List.append_of_mem hct
  refine ⟨c::(before++after),List.perm_middle.symm,?_⟩
  rw [lookupFlow_eq hf]
  unfold candidates at hc
  split at hc
  · rename_i hnil
    have hsrc : (c::(before++after)).find? (matchesSrc ap)=none := by
      rw [List.find?_eq_none]
      intro e he
      exact List.filter_eq_nil_iff.mp hnil e (List.perm_middle.symm.subset he)
    rw [hsrc,Option.none_or,List.find?_cons_of_pos (List.of_mem_filter hc)]
    rfl
  · rw [List.find?_cons_of_pos (List.of_mem_filter hc)]
    rfl

/-- The order does not change which entries are candidates. -/
theorem mem_candidates_perm (hp : t'.Perm t) {c : SockEntry} :
    c∈candidates t' ap ↔ c∈candidates t ap := by
  have hs := hp.filter (matchesSrc ap)
  have hd := hp.filter (matchesDst ap)
  unfold candidates
  by_cases hnil : t.filter (matchesSrc ap)=[]
  · rw [if_pos hnil,if_pos (List.perm_nil.mp (hnil ▸ hs)),hd.mem_iff]
  · have hnil' : t'.filter (matchesSrc ap)≠[] := fun he => hnil (List.nil_perm.mp (he ▸ hs))
    rw [if_neg hnil,if_neg hnil',hs.mem_iff]

/-- If every order gives an owner, owners are all the scan can find. -/
theorem ownersOnly_of_attributed (hf : ap.addressFamily≠.unspec)
    (h : ∀ t',t'.Perm t→AttributedToOwner t' ap) : OwnersOnly t ap := by
  obtain ⟨hexact,-,hnone⟩ := h t (.refl t)
  refine ⟨fun hex => ⟨?_,fun c hc => ?_⟩,fun hex hwild => ?_⟩
  · obtain ⟨pe,hl,-⟩ := hexact hex
    rcases lookup_candidate hf t with ⟨-,hno⟩|⟨c,hc,-⟩
    · rw [hl] at hno
      simp at hno
    · exact List.ne_nil_of_mem hc
  · obtain ⟨t',hp,hl⟩ := exists_order hf hc
    obtain ⟨e,he,hx⟩ := hex
    obtain ⟨pe,hl',e',he',hx',hpid⟩ := (h t' hp).1 ⟨e,hp.mem_iff.mpr he,hx⟩
    obtain rfl : owner c=pe := Option.some.inj (hl.symm.trans hl')
    exact ⟨e',hp.subset he',hx',hpid⟩
  · have hl := hnone hex hwild
    rw [lookupFlow_eq hf,Option.map_eq_none_iff,Option.or_eq_none_iff] at hl
    rw [List.filter_eq_nil_iff]
    exact List.find?_eq_none.mp hl.2

/-- The order does not change whether owners are all the scan can find. -/
theorem OwnersOnly.perm (h : OwnersOnly t ap) (hp : t'.Perm t) : OwnersOnly t' ap := by
  obtain ⟨hexact,hnone⟩ := h
  have hmem (P : SockEntry→Prop) : (∃ e∈t',P e) ↔ ∃ e∈t,P e := by
    simp only [hp.mem_iff]
  refine ⟨fun hex => ?_,fun hex hwild => ?_⟩
  · obtain ⟨hne,hall⟩ := hexact ((hmem _).mp hex)
    obtain ⟨c,hc⟩ := List.exists_mem_of_ne_nil _ hne
    refine ⟨List.ne_nil_of_mem ((mem_candidates_perm hp).mpr hc),fun c hc => ?_⟩
    exact (hmem _).mpr (hall c ((mem_candidates_perm hp).mp hc))
  · have hd := hnone (fun hx => hex ((hmem _).mpr hx)) fun hx => hwild ((hmem _).mpr hx)
    exact List.perm_nil.mp (hd ▸ hp.filter (matchesDst ap))

/-- If owners are all the scan can find, one of them is found. -/
theorem OwnersOnly.attributed (h : OwnersOnly t ap) (hf : ap.addressFamily≠.unspec) :
    AttributedToOwner t ap := by
  obtain ⟨hexact,hnone⟩ := h
  refine ⟨fun hex => ?_,fun hex hwild => ?_,fun hex hwild => ?_⟩
  · obtain ⟨hne,hall⟩ := hexact hex
    rcases lookup_candidate hf t with ⟨hno,-⟩|⟨c,hc,hl⟩
    · exact absurd hno hne
    · obtain ⟨e,he,hx,hpid⟩ := hall c hc
      exact ⟨owner c,hl,e,he,hx,hpid⟩
  · -- a wildcard entry matches, and what matches without being exact is one
    obtain ⟨w,hw,hwild⟩ := hwild
    have hsome : ∃ c,t.find? (matchesSrc ap)=some c := by
      rw [←Option.isSome_iff_exists,List.find?_isSome]
      exact ⟨w,hw,matchesSrc_of_wildcard hwild⟩
    obtain ⟨c,hc⟩ := hsome
    have hct := List.mem_of_find?_eq_some hc
    refine ⟨owner c,by rw [lookupFlow_eq hf,hc]; rfl,c,hct,?_,rfl⟩
    exact (exact_or_wildcard (List.find?_some hc)).resolve_left fun hx => hex ⟨c,hct,hx⟩
  · have hsrc : t.find? (matchesSrc ap)=none := by
      rw [List.find?_eq_none]
      intro e he hm
      rcases exact_or_wildcard hm with hx|hx
      · exact hex ⟨e,he,hx⟩
      · exact hwild ⟨e,he,hx⟩
    have hdst : t.find? (matchesDst ap)=none :=
      List.find?_eq_none.mpr (List.filter_eq_nil_iff.mp (hnone hex hwild))
    rw [lookupFlow_eq hf,hsrc,hdst]
    rfl

/-- Whatever the order of the entries, the flow is attributed to the process
that owns its local endpoint, exactly when owners are all the scan can find. -/
theorem attributed_iff_owners_only (t : List SockEntry) (ap : AddrPair)
    (hf : ap.addressFamily≠.unspec) :
    (∀ t',t'.Perm t→AttributedToOwner t' ap) ↔ OwnersOnly t ap := by
  constructor
  · exact ownersOnly_of_attributed hf
  · intro h t' hp
    exact (h.perm hp).attributed hf

/-- A TCP packet from 192.0.2.1 port 22 to 198.51.100.7 port 50000. -/
def sshPacket : Packet := fun i =>
  [0x45,0,0,40,0,0,0,0,64,6,0,0,192,0,2,1,198,51,100,7,0,22,0xc3,0x50].getD i 0

/-- Its flow, when it leaves the interface. -/
def sshFlow : AddrPair := flowKey sshPacket false

/-- A listener on all addresses. -/
def sshListener : SockEntry := ⟨.inet,6,22,fun _ => 0,100,"sshd".toList⟩

/-- The connection, handed to another process. -/
def sshSession : SockEntry :=
  ⟨.inet,6,22,in6OfIn ![192,0,2,1],200,"sshd-session".toList⟩

/-- A listener of the process of the connection. -/
def sharedListener : SockEntry := {sshListener with pid := 200}

/-- The connection is at the local endpoint. -/
theorem sshSession_exact : Exact sshSession sshFlow := by
  refine ⟨by decide,by decide,?_⟩
  decide

/-- A listener on all addresses does not match the flow exactly. -/
theorem sshListener_not_exact : ¬Exact sshListener sshFlow := by
  rintro ⟨-,-,hc⟩
  revert hc
  decide

/-- A table with the connection and a listener of the same process attributes the flow to it in
every order. With a listener of another process there is an order in which it does not. -/
theorem attributed_iff_owners_only_session :
    (∀ t',t'.Perm [sharedListener,sshSession]→AttributedToOwner t' sshFlow) ∧
      ¬∀ t',t'.Perm [sshListener,sshSession]→AttributedToOwner t' sshFlow := by
  have hsession (e : SockEntry) : ∃ e'∈[e,sshSession],Exact e' sshFlow :=
    ⟨sshSession,by simp,sshSession_exact⟩
  constructor
  · refine (attributed_iff_owners_only _ _ (by decide)).mpr
      ⟨fun _ => ⟨by decide,fun c hc => ⟨sshSession,by simp,sshSession_exact,?_⟩⟩,
        fun hno _ => absurd (hsession _) hno⟩
    have hcandidates : candidates [sharedListener,sshSession] sshFlow=
        [sharedListener,sshSession] := by
      rw [candidates,if_neg (by decide)]
      exact List.filter_eq_self.mpr (by decide)
    rw [hcandidates] at hc
    rcases List.mem_pair.mp hc with rfl|rfl <;> rfl
  · intro h
    have howners := (attributed_iff_owners_only _ _ (by decide)).mp h
    have hlistener : sshListener∈candidates [sshListener,sshSession] sshFlow := by
      rw [candidates,if_neg (by decide)]
      exact List.mem_filter.mpr ⟨List.mem_cons_self,by decide⟩
    obtain ⟨e,he,hx,hpid⟩ := (howners.1 (hsession _)).2 _ hlistener
    rcases List.mem_pair.mp he with rfl|rfl
    · exact sshListener_not_exact hx
    · exact absurd hpid (by decide)

/-- With the listener first in the table, the outgoing packet's flow gets the
listener's process, although the connection has an entry of its own. -/
theorem listener_not_owner :
    (∃ a,account bareEnv sshPacket 1=some a ∧ a.key=sshFlow) ∧
      DirectionFixed bareEnv sshPacket 1 ∧
      ¬AttributedToOwner [sshListener,sshSession] sshFlow := by
  have hv : ipV sshPacket=4 := by decide
  have hlookup : lookupFlow [sshListener,sshSession] sshFlow=some (owner sshListener) := by
    rw [lookupFlow_eq (by decide),List.find?_cons_of_pos (by decide)]
    rfl
  refine ⟨?_,?_,?_⟩
  · have hd : decideDirection bareEnv sshPacket 1=.assign false true := by decide
    have hl : dropLinkLocal bareEnv sshPacket=false := by decide
    have ha : account bareEnv sshPacket 1=
        some (accountAs sshPacket (assignAddrPair sshPacket false) true) := by
      simp [account,hd,hl]
    refine ⟨_,ha,?_⟩
    rw [accountAs_assign (.inl hv)]
    rfl
  · simp [DirectionFixed]
  · intro h
    obtain ⟨pe,hl,e,he,hx,hpid⟩ := h.1 ⟨sshSession,by simp,sshSession_exact⟩
    obtain rfl : owner sshListener=pe := Option.some.inj (hlookup.symm.trans hl)
    rcases List.mem_cons.mp he with rfl|he
    · exact sshListener_not_exact hx
    · rw [List.mem_singleton.mp he] at hpid
      revert hpid
      decide

end IftopColor.ProcOwner
