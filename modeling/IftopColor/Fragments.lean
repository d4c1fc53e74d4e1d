import IftopColor.CaptureBounds

/-!
# Keys of IP fragments

`assign_addr_pair` looks for ports after the IPv4 header of every TCP or UDP
packet. Only the first fragment of a datagram has ports there; in the other
fragments those bytes are data. So two such fragments with the same header get
the same key only if their data begins alike, or if both are dropped.
-/

namespace IftopColor.Fragments

open AddrHash Options PacketDirection LinkLayer CaptureBounds

/-- Fragment offset of an IPv4 packet, in units of eight bytes. -/
def fragmentOffset (iptr : Packet) : ℕ := (ntohs iptr 6 &&& 0x1fff).toNat

/-- Bytes of the IPv4 header with its options. -/
def headerLength (iptr : Packet) : ℕ := max 20 (ipHl iptr*4)

/-- A TCP or UDP fragment over IPv4 that is not the first of its datagram. -/
structure LaterFragment (iptr : Packet) : Prop where
  /-- IPv4. -/
  version : ipV iptr=4
  /-- TCP or UDP. -/
  ported : ipP iptr=ipprotoTcp ∨ ipP iptr=ipprotoUdp
  /-- Data before this fragment. -/
  offset : 0<fragmentOffset iptr

/-- Two packets that differ after the IP header at most. -/
def SameHeader (p q : Packet) : Prop := ∀ i<headerLength p,p i=q i

/-- The key that `handle_ip_packet` derives, unless it drops the packet. -/
def derivedKey (env : Env) (iptr : Packet) (hwDir : ℤ) : Option AddrPair :=
  (account env iptr hwDir).map Accounted.key

/-- An IPv4 packet that is dropped: with a net filter, both ends or none are
inside; without one, neither the hardware nor the own address gives the
direction and packets between other machines are not wanted. -/
def Drops4 (env : Env) (iptr : Packet) (hwDir : ℤ) : Prop :=
  let o := env.options
  if o.netfilter then inFilterNet o (ipSrc iptr)=inFilterNet o (ipDst iptr)
  else hwDir≠1 ∧ hwDir≠0 ∧ ipAddrMatch env (ipSrc iptr)=false ∧
    ipAddrMatch env (ipDst iptr)=false ∧ o.promiscuousButChoosy=true

/-- The first four bytes after the IP header, where ports would be. -/
def SamePorts (p q : Packet) : Prop := ∀ i<4,p (ipHl p*4+i)=q (ipHl p*4+i)

variable {env : Env} {p q : Packet} {hwDir : ℤ}

/-- Bytes of the fixed header are the same. -/
theorem SameHeader.fixed (h : SameHeader p q) {i : ℕ} (hi : i<20) : p i=q i :=
  h i (hi.trans_le (le_max_left ..))

/-- The addresses and the fields before them are the same. -/
theorem SameHeader.fields (h : SameHeader p q) :
    ipV p=ipV q ∧ ipHl p=ipHl q ∧ ipP p=ipP q ∧ ipSrc p=ipSrc q ∧ ipDst p=ipDst q := by
  have h0 := h.fixed (by decide : 0<20)
  refine ⟨by rw [ipV,ipV,h0],by rw [ipHl,ipHl,h0],h.fixed (by decide : 9<20),?_,?_⟩
  · funext j
    exact h.fixed (by omega)
  · funext j
    exact h.fixed (by omega)

/-- An IPv4 packet is dropped or assigned a pair. -/
theorem decideDirection_v4 (h : ipV p=4) :
    (Drops4 env p hwDir ∧ decideDirection env p hwDir=.drop) ∨
      (¬Drops4 env p hwDir ∧
        ∃ flip direction,decideDirection env p hwDir=.assign flip direction) := by
  unfold Drops4 decideDirection
  dsimp only
  cases env.options.netfilter with
  | true =>
    cases inFilterNet env.options (ipSrc p) <;>
      cases inFilterNet env.options (ipDst p) <;> simp [h,directionFiltered]
  | false =>
    simp only [h,Bool.false_eq_true,not_false_eq_true,and_self,true_or,if_true,if_false]
    unfold directionUnfiltered
    by_cases h1 : hwDir=1
    · simp [h1]
    by_cases h0 : hwDir=0
    · simp [h0]
    simp only [h,h1,h0,if_false,true_and]
    cases ipAddrMatch env (ipSrc p) with
    | true => simp
    | false =>
      cases ipAddrMatch env (ipDst p) with
      | true => simp
      | false =>
        cases env.options.promiscuousButChoosy with
        | true => simp [h1,h0]
        | false => by_cases hlt : sAddr (ipSrc p)<sAddr (ipDst p) <;> simp [hlt]

/-- The direction of an IPv4 packet is decided by its header. -/
theorem SameHeader.direction (hs : SameHeader p q) (h : ipV p=4) :
    decideDirection env q hwDir=decideDirection env p hwDir := by
  obtain ⟨hv,-,-,hsrc,hdst⟩ := hs.fields
  have hq : ipV q=4 := hv ▸ h
  simp only [decideDirection,directionUnfiltered,h,hq,hsrc,hdst,v4_ne_v6,false_and,if_false]

/-- The two bytes that `ntohs` reads can be told from its result. -/
theorem ntohs_inj {i : ℕ} : ntohs p i=ntohs q i ↔ p i=q i ∧ p (i+1)=q (i+1) := by
  constructor
  · intro h
    have hn := congrArg UInt16.toNat h
    rw [ntohs_toNat,ntohs_toNat] at hn
    have hp := (p (i+1)).toNat_lt
    have hq := (q (i+1)).toNat_lt
    exact ⟨UInt8.toNat_inj.mp (by omega),UInt8.toNat_inj.mp (by omega)⟩
  · rintro ⟨h0,h1⟩
    rw [ntohs,ntohs,h0,h1]

/-- The ports of two fragments are the same when their first four bytes are. -/
theorem ipPorts_iff (hp : LaterFragment p) (hs : SameHeader p q) :
    ipPorts p=ipPorts q ↔ SamePorts p q := by
  obtain ⟨-,hl,hproto,-,-⟩ := hs.fields
  have hsplit : SamePorts p q ↔
      ((p (ipHl p*4)=q (ipHl p*4) ∧ p (ipHl p*4+1)=q (ipHl p*4+1)) ∧
        p (ipHl p*4+2)=q (ipHl p*4+2) ∧ p (ipHl p*4+2+1)=q (ipHl p*4+2+1)) := by
    constructor
    · intro h
      exact ⟨⟨h 0 (by decide),h 1 (by decide)⟩,h 2 (by decide),h 3 (by decide)⟩
    · rintro ⟨⟨h0,h1⟩,h2,h3⟩ i hi
      match i,hi with
      | 0,_ => exact h0
      | 1,_ => exact h1
      | 2,_ => exact h2
      | 3,_ => exact h3
  rw [hsplit,ipPorts,ipPorts,transportPorts,transportPorts,←hproto,←hl,if_pos hp.ported,
    if_pos hp.ported,Prod.mk.injEq,ntohs_inj,ntohs_inj]

/-- The keys of two fragments that are assigned a pair are the same when their
ports are. -/
theorem flowKey_iff (hp : LaterFragment p) (hs : SameHeader p q) (flip : Bool) :
    flowKey p flip=flowKey q flip ↔ ipPorts p=ipPorts q := by
  obtain ⟨hv,-,hproto,hsrc,hdst⟩ := hs.fields
  have h4 := hp.version
  have hq : ipV q=4 := hv ▸ h4
  rw [Prod.ext_iff]
  cases flip with
  | false =>
    simp [flowKey,pairOf,packetFamily,packetProtocol,srcEnd,dstEnd,h4,hq,hproto,hsrc,hdst]
  | true =>
    simp [flowKey,pairOf,packetFamily,packetProtocol,srcEnd,dstEnd,h4,hq,hproto,hsrc,hdst,and_comm]

/-- The key of an IPv4 packet, from its direction. -/
theorem derivedKey_v4 (h : ipV p=4) :
    derivedKey env p hwDir=
      match decideDirection env p hwDir with
      | .assign flip _ => some (flowKey p flip)
      | _ => none := by
  have hl : dropLinkLocal env p=false := by simp [dropLinkLocal,h,v4_ne_v6]
  unfold derivedKey account
  rcases @decideDirection_v4 env p hwDir h with ⟨-,hd⟩|⟨-,flip,direction,hd⟩
  · rw [hd]
    rfl
  · rw [hd]
    simp only [hl,Bool.false_eq_true,if_false,Option.map_some,accountAs_assign (Or.inl h)]

/-- For all options and hardware directions, two later fragments with the same
header get the same key if and only if both are dropped or their first four
bytes, which are data, are the same. -/
theorem fragment_key_iff (env : Env) (hwDir : ℤ) {p q : Packet} (hp : LaterFragment p)
    (hs : SameHeader p q) :
    derivedKey env p hwDir=derivedKey env q hwDir ↔ Drops4 env p hwDir ∨ SamePorts p q := by
  have hq : ipV q=4 := hs.fields.1 ▸ hp.version
  rw [derivedKey_v4 hp.version,derivedKey_v4 hq,hs.direction hp.version]
  rcases @decideDirection_v4 env p hwDir hp.version with ⟨hx,hd⟩|⟨hx,flip,direction,hd⟩
  · simp [hd,hx]
  · simp only [hd,hx,false_or,Option.some.injEq]
    rw [flowKey_iff hp hs,ipPorts_iff hp hs]

/-- A UDP fragment at offset eight, with the first and the fifth byte of its data. -/
def udpFragment (first fifth : UInt8) : Packet := fun i =>
  if i=0 then 0x45
  else if i=7 then 1
  else if i=9 then ipprotoUdp
  else if i=20 then first
  else if i=24 then fifth
  else 0

/-- A `udpFragment` comes after the first one of its datagram. -/
theorem udpFragment_later (first fifth : UInt8) : LaterFragment (udpFragment first fifth) where
  version := (by decide : ((0x45 : UInt8) &&& 0xf0) >>> 4=4)
  ported := .inr rfl
  offset := (by decide :
    0<((((0 : UInt8).toUInt16 <<< 8) ||| (1 : UInt8).toUInt16) &&& (0x1fff : UInt16)).toNat)

/-- The data is no part of the header. -/
theorem udpFragment_sameHeader (first second fifth sixth : UInt8) :
    SameHeader (udpFragment first fifth) (udpFragment second sixth) := by
  have hl : headerLength (udpFragment first fifth)=20 :=
    (by decide : max 20 (((0x45 : UInt8) &&& 0x0f).toNat*4)=20)
  intro i hi
  rw [hl] at hi
  have hi' : i≠20 ∧ i≠24 := by omega
  simp [udpFragment,hi']

/-- Fragments that differ behind the first four bytes of their data get equal keys. -/
theorem fragment_key_iff_equal :
    udpFragment 7 1≠udpFragment 7 2 ∧
      derivedKey bareEnv (udpFragment 7 1) 0=derivedKey bareEnv (udpFragment 7 2) 0 := by
  have hports : SamePorts (udpFragment 7 1) (udpFragment 7 2) := by
    have hl : ipHl (udpFragment 7 1)=5 := by decide
    intro i hi
    rw [hl]
    have hi' : 5*4+i≠24 := by omega
    simp [udpFragment,hi']
  refine ⟨fun h => absurd (congrFun h 24) (by decide),?_⟩
  exact (fragment_key_iff bareEnv 0 (udpFragment_later 7 1)
    (udpFragment_sameHeader 7 7 1 2)).mpr (.inr hports)

/-- Incoming fragments that differ in the first byte of their data only get
different keys. -/
theorem fragment_key_differs :
    LaterFragment (udpFragment 1 0) ∧ SameHeader (udpFragment 1 0) (udpFragment 2 0) ∧
      derivedKey bareEnv (udpFragment 1 0) 0≠derivedKey bareEnv (udpFragment 2 0) 0 := by
  refine ⟨udpFragment_later 1 0,udpFragment_sameHeader 1 2 0 0,?_⟩
  have hp : ipPorts (udpFragment 1 0)≠ipPorts (udpFragment 2 0) := by decide
  have hk (first : UInt8) : derivedKey bareEnv (udpFragment first 0) 0=
      some (flowKey (udpFragment first 0) true) := by
    have hv := (udpFragment_later first 0).version
    rw [derivedKey_v4 hv]
    simp [decideDirection,directionUnfiltered,hv,bareEnv,optionsSetDefaults]
  rw [hk,hk,ne_eq,Option.some.injEq,
    flowKey_iff (udpFragment_later 1 0) (udpFragment_sameHeader 1 2 0 0)]
  exact hp

end IftopColor.Fragments
