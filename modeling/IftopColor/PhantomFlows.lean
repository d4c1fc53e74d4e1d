import IftopColor.FlowAccounting
import IftopColor.ByteConservation

/-!
# Keys without a packet behind them

A packet that no direction branch assigned is not dropped: it is accounted
under the zeroed pair, whose family is neither IPv4 nor IPv6. The packets for
which that happens are characterised exactly, and the history is free of such
keys throughout a run exactly when the run has no such packet.
-/

namespace IftopColor.PhantomFlows

open RecordStore AddrHash Options PacketDirection History FlowAccounting ByteConservation

/-- The key consists of the packet's family, protocol and endpoints, the
endpoints in this or in swapped order. -/
def StemsFrom (k : AddrPair) (iptr : Packet) : Prop :=
  IsIp iptr ∧ k.addressFamily=packetFamily iptr ∧ k.protocol=packetProtocol iptr ∧
    (((k.src6,k.srcPort)=srcEnd iptr ∧ (k.dst6,k.dstPort)=dstEnd iptr) ∨
      ((k.src6,k.srcPort)=dstEnd iptr ∧ (k.dst6,k.dstPort)=srcEnd iptr))

/-- After the run, every key in the history is of family IPv4 or IPv6 and
stems from a packet of the run. -/
def NoPhantom (es : List Event) : Prop :=
  ∀ k∈keys (flows (run es)),(k.addressFamily=.inet ∨ k.addressFamily=.inet6) ∧
    ∃ env iptr hwDir,Event.packet env iptr hwDir∈es ∧ StemsFrom k iptr

/-- The packet is IPv4, or it is IPv6 and its direction is fixed, or it is
dropped by the choosy option or by the link-local test. -/
def Determined (env : Env) (iptr : Packet) (hwDir : ℤ) : Prop :=
  ipV iptr=4 ∨ (ipV iptr=6 ∧ (DirectionFixed env iptr hwDir ∨
    env.options.promiscuousButChoosy=true)) ∨ dropLinkLocal env iptr=true

variable {env : Env} {iptr : Packet} {hwDir : ℤ}

/-- A net filter assigns a pair or drops the packet. -/
theorem filtered_ne_unassigned (srcInside dstInside : Bool) :
    directionFiltered srcInside dstInside≠.unassigned := by
  unfold directionFiltered
  split_ifs <;> simp

/-- Without a net filter, so do the other branches on IPv4 packets and under the
choosy option. -/
theorem unfiltered_ne_unassigned (h : ipV iptr=4 ∨ env.options.promiscuousButChoosy=true) :
    directionUnfiltered env iptr hwDir≠.unassigned := by
  unfold directionUnfiltered
  rcases h with h|h
  · simp only [h,true_and]
    split_ifs <;> simp
  · simp only [h,if_true]
    split_ifs <;> simp

/-- No branch assigns a pair exactly to packets of another version and to IPv6
packets of open direction that are not dropped for it. -/
theorem unassigned_iff : decideDirection env iptr hwDir=.unassigned ↔
    ¬(ipV iptr=4 ∨ (ipV iptr=6 ∧ (DirectionFixed env iptr hwDir ∨
      env.options.promiscuousButChoosy=true))) := by
  constructor
  · rintro hd (h|⟨h,hf|hc⟩)
    · cases hn : env.options.netfilter with
      | false =>
        simp only [decideDirection,h,hn] at hd
        exact unfiltered_ne_unassigned (.inl h) (by simpa using hd)
      | true =>
        simp only [decideDirection,h,hn] at hd
        exact filtered_ne_unassigned _ _ (by simpa using hd)
    · rcases assign_of_fixed (.inr h) hf with he|he|he <;> simp [he] at hd
    · cases hn : env.options.netfilter6 with
      | false =>
        simp only [decideDirection,h,hn] at hd
        exact unfiltered_ne_unassigned (.inr hc) (by simpa using hd)
      | true =>
        simp only [decideDirection,h,hn] at hd
        exact filtered_ne_unassigned _ _ (by simpa using hd)
  · intro hn
    simp only [not_or,not_and] at hn
    obtain ⟨h4,h6⟩ := hn
    by_cases h : ipV iptr=6
    · obtain ⟨hf,hc⟩ := h6 h
      simp only [DirectionFixed,h,not_or,true_and] at hf
      obtain ⟨h0,h1,-,hnf,hs,hd⟩ := hf
      simp [decideDirection,directionUnfiltered,h,h0,h1,hnf,hs,hd,hc]
    · simp [decideDirection,h4,h]

/-- The key of an unassigned packet has no address family. -/
theorem unassigned_family : (setProtocol iptr AddrPair.zero).addressFamily=.unspec := by
  unfold setProtocol
  split_ifs <;> rfl

/-- The key of a packet whose direction is determined is made of its endpoints. -/
theorem stemsFrom_of_determined (h : Determined env iptr hwDir) {a : Accounted}
    (ha : account env iptr hwDir=some a) : StemsFrom a.key iptr := by
  obtain ⟨hl,⟨flip,direction,hd,rfl⟩|⟨hd,-⟩⟩ := account_cases ha
  · have hi : IsIp iptr := isIp_of_decided (by rw [hd]; simp)
    rw [accountAs_assign hi]
    cases flip <;> simp [StemsFrom,flowKey,pairOf,hi]
  · have hn := unassigned_iff.mp hd
    rcases h with h|h|h
    · exact absurd (.inl h) hn
    · exact absurd (.inr h) hn
    · rw [hl] at h
      simp at h

/-- A packet that is not determined is accounted under a key without family. -/
theorem account_of_not_determined (h : ¬Determined env iptr hwDir) :
    account env iptr hwDir=some (accountAs iptr AddrPair.zero false) := by
  simp only [Determined,not_or] at h
  obtain ⟨h4,h6,hl⟩ := h
  have hd : decideDirection env iptr hwDir=.unassigned := unassigned_iff.mpr (by tauto)
  simp [account,hd,hl]

/-- Keys present after a run belong to accounted packets of the run. -/
theorem accounted_of_key {es : List Event} {k : AddrPair} (hk : k∈keys (flows (run es))) :
    ∃ env iptr hwDir a,Event.packet env iptr hwDir∈es ∧ account env iptr hwDir=some a ∧
      a.key=k := by
  obtain ⟨⟨k',r⟩,hm,rfl⟩ := List.mem_map.mp hk
  obtain ⟨j,-,-,⟨a,ha,hak⟩,-⟩ := (run_follows es).2.last _ hm
  obtain ⟨e,he,hacc⟩ := mem_slotPackets ha
  cases e with
  | rotate => simp [Event.accounted] at hacc
  | packet env iptr hwDir => exact ⟨env,iptr,hwDir,a,he,hacc,hak⟩

/-- The key of a packet that was just accounted is present. -/
theorem key_present (es : List Event) {a : Accounted} (ha : account env iptr hwDir=some a) :
    a.key∈keys (flows (run (es++[.packet env iptr hwDir]))) := by
  refine (run_follows _).2.present 0 (by decide) a ?_
  simp [slotPackets,slotStep,Event.accounted,ha]

/-- A packet that is not determined leaves a phantom key behind. -/
theorem phantom_of_not_determined (es : List Event) (h : ¬Determined env iptr hwDir) :
    ¬NoPhantom (es++[.packet env iptr hwDir]) := by
  intro hno
  have hk := key_present es (account_of_not_determined h)
  have hf := (hno _ hk).1
  simp only [accountAs,unassigned_family] at hf
  simp at hf

/-- The history is free of phantom keys after every initial part of a run
exactly when the direction of every packet of the run is determined. -/
theorem no_phantom_iff_determined (es : List Event) :
    (∀ es',es'<+:es→NoPhantom es') ↔
      ∀ env iptr hwDir,Event.packet env iptr hwDir∈es→Determined env iptr hwDir := by
  constructor
  · intro h env iptr hwDir hm
    by_contra hd
    obtain ⟨old,new,rfl⟩ := List.append_of_mem hm
    refine phantom_of_not_determined old hd (h _ ?_)
    exact ⟨new,by simp⟩
  · intro h es' hp k hk
    obtain ⟨env,iptr,hwDir,a,he,ha,rfl⟩ := accounted_of_key hk
    have hs := stemsFrom_of_determined (h env iptr hwDir (hp.subset he)) ha
    refine ⟨?_,env,iptr,hwDir,he,hs⟩
    rw [hs.2.1,packetFamily]
    split_ifs <;> simp

/-- An ICMPv6 packet from `2001:db8::1` to `2001:db8::2`. -/
def icmp6Packet : Packet :=
  ip6Packet 58 ![0x20,0x01,0x0d,0xb8,0,0,0,0,0,0,0,0,0,0,0,1]
    ![0x20,0x01,0x0d,0xb8,0,0,0,0,0,0,0,0,0,0,0,2]

/-- One IPv6 packet between two other hosts, with no direction from the
hardware, already leaves a key of no family. -/
theorem icmp6_phantom : ¬NoPhantom [.packet bareEnv icmp6Packet (-1)] := by
  apply phantom_of_not_determined []
  have h4 : ipV icmp6Packet=6 := by decide
  simp only [Determined,DirectionFixed,h4]
  decide

end IftopColor.PhantomFlows
