import IftopColor.Options
import IftopColor.ProcInfo

/-!
# Reading a packet: direction, key, side and length

A packet is the memory from its IP header on. The direction branches of
`handle_ip_packet` decide whether the packet is dropped, how its endpoints are
ordered in the key, and which global counter it goes to; the side of the flow
record is decided separately, by comparing the packet's source with the key.
None of this depends on the history, so the whole decision is one function
from the capture settings, the packet and the hardware direction.
-/

namespace IftopColor.PacketDirection

open NetBytes AddrHash Options ProcInfo

/-- Bytes from the start of the IP header on. -/
abbrev Packet := ℕ→UInt8

/-- Globals that `handle_ip_packet` reads and never changes. -/
structure Env where
  /-- The options in force. -/
  options : OptionsT
  /-- `have_ip_addr`. -/
  haveIpAddr : Bool
  /-- `if_ip_addr`. -/
  ifIpAddr : InAddr
  /-- `have_ip6_addr`. -/
  haveIp6Addr : Bool
  /-- `if_ip6_addr`. -/
  ifIp6Addr : In6Addr
  /-- Socket table that process lookups scan. -/
  liveTable : List SockEntry

/-- Default options on an interface without addresses. -/
def bareEnv : Env := ⟨optionsSetDefaults,false,fun _ => 0,false,fun _ => 0,[]⟩

/-- `IP_V`. -/
def ipV (iptr : Packet) : UInt8 := (iptr 0 &&& 0xf0) >>> 4

/-- `IP_HL`, in 32-bit words. -/
def ipHl (iptr : Packet) : ℕ := (iptr 0 &&& 0x0f).toNat

/-- `ntohs` of the two bytes at an offset. -/
def ntohs (iptr : Packet) (i : ℕ) : UInt16 :=
  ((iptr i).toUInt16 <<< 8) ||| (iptr (i+1)).toUInt16

/-- `ip_p`. -/
def ipP (iptr : Packet) : UInt8 := iptr 9

/-- `ip_src`. -/
def ipSrc (iptr : Packet) : InAddr := fun j => iptr (12+j)

/-- `ip_dst`. -/
def ipDst (iptr : Packet) : InAddr := fun j => iptr (16+j)

/-- `ip6_nxt`. -/
def ip6Nxt (iptr : Packet) : UInt8 := iptr 6

/-- `ip6_src`. -/
def ip6Src (iptr : Packet) : In6Addr := fun j => iptr (8+j)

/-- `ip6_dst`. -/
def ip6Dst (iptr : Packet) : In6Addr := fun j => iptr (24+j)

/-- `IPPROTO_TCP`. -/
def ipprotoTcp : UInt8 := 6

/-- `IPPROTO_UDP`. -/
def ipprotoUdp : UInt8 := 17

/-- Source and destination port of the transport header at an offset, zero
unless the protocol is TCP or UDP. -/
def transportPorts (iptr : Packet) (protocol : UInt8) (offset : ℕ) : UInt16×UInt16 :=
  if protocol=ipprotoTcp ∨ protocol=ipprotoUdp then (ntohs iptr offset,ntohs iptr (offset+2))
  else (0,0)

/-- Ports of an IPv4 packet; the header length field locates the transport header. -/
def ipPorts (iptr : Packet) : UInt16×UInt16 := transportPorts iptr (ipP iptr) (ipHl iptr*4)

/-- Ports of an IPv6 packet, taken right after the fixed header. -/
def ip6Ports (iptr : Packet) : UInt16×UInt16 := transportPorts iptr (ip6Nxt iptr) 40

/-- `assign_addr_pair`: zero the pair, then fill in the endpoints, swapped
when `flip` is set. Other versions leave the zeroed pair. -/
def assignAddrPair (iptr : Packet) (flip : Bool) : AddrPair :=
  let ap := AddrPair.zero
  if ipV iptr=4 then
    let (srcPort,dstPort) := ipPorts iptr
    if flip=false then
      {ap with
        addressFamily := .inet
        src6 := in6OfIn (ipSrc iptr)
        srcPort := srcPort
        dst6 := in6OfIn (ipDst iptr)
        dstPort := dstPort}
    else
      {ap with
        addressFamily := .inet
        src6 := in6OfIn (ipDst iptr)
        srcPort := dstPort
        dst6 := in6OfIn (ipSrc iptr)
        dstPort := srcPort}
  else if ipV iptr=6 then
    let (srcPort,dstPort) := ip6Ports iptr
    if flip=false then
      {ap with
        addressFamily := .inet6
        src6 := ip6Src iptr
        srcPort := srcPort
        dst6 := ip6Dst iptr
        dstPort := dstPort}
    else
      {ap with
        addressFamily := .inet6
        src6 := ip6Dst iptr
        srcPort := dstPort
        dst6 := ip6Src iptr
        dstPort := srcPort}
  else ap

/-- `in_filter_net`. -/
def inFilterNet (o : OptionsT) (addr : InAddr) : Bool :=
  decide (maskBytes addr o.netfiltermask=o.netfilternet)

/-- The comparison of a masked IPv6 address with the filter network. -/
def inFilterNet6 (o : OptionsT) (addr : In6Addr) : Bool :=
  decide (maskBytes addr o.netfilter6mask=o.netfilter6net)

/-- `ip_addr_match`, guarded by `have_ip_addr`. -/
def ipAddrMatch (env : Env) (addr : InAddr) : Bool :=
  env.haveIpAddr && decide (addr=env.ifIpAddr)

/-- `ip6_addr_match`, guarded by `have_ip6_addr`. -/
def ip6AddrMatch (env : Env) (addr : In6Addr) : Bool :=
  env.haveIp6Addr && decide (addr=env.ifIp6Addr)

/-- The address begins with `0xfe` and the first two bits of the given byte. -/
def in6HasPrefix (second : UInt8) (a : In6Addr) : Bool :=
  decide (a 0=0xfe ∧ a 1 &&& 0xc0=second)

/-- `IN6_IS_ADDR_LINKLOCAL`: the prefix `fe80::/10`. -/
def in6IsAddrLinklocal (a : In6Addr) : Bool := in6HasPrefix 0x80 a

/-- What a direction branch does: return, call `assign_addr_pair` with a flip
argument and set the direction (true is outgoing), or neither. -/
inductive Decision where
  | drop
  | assign (flip direction : Bool)
  | unassigned
  deriving DecidableEq

/-- The branches taken when the net filter of the packet's version is off:
hardware direction, own address, the choosy option, numerical order. -/
def directionUnfiltered (env : Env) (iptr : Packet) (hwDir : ℤ) : Decision :=
  if hwDir=1 then .assign false true
  else if hwDir=0 then .assign true false
  else if ipV iptr=4 ∧ ipAddrMatch env (ipSrc iptr) then .assign false true
  else if ipV iptr=4 ∧ ipAddrMatch env (ipDst iptr) then .assign true false
  else if ipV iptr=6 ∧ ip6AddrMatch env (ip6Src iptr) then .assign false true
  else if ipV iptr=6 ∧ ip6AddrMatch env (ip6Dst iptr) then .assign true false
  else if env.options.promiscuousButChoosy then .drop
  else if ipV iptr=4 ∧ sAddr (ipSrc iptr)<sAddr (ipDst iptr) then .assign true false
  else if ipV iptr=4 then .assign false false
  else .unassigned

/-- The branches of a net filter, from which endpoints are inside. -/
def directionFiltered (srcInside dstInside : Bool) : Decision :=
  if srcInside ∧ ¬dstInside then .assign false true
  else if dstInside ∧ ¬srcInside then .assign true false
  else .drop

/-- The three direction sections of `handle_ip_packet`, whose conditions
exclude each other; a packet of another version passes by all three. -/
def decideDirection (env : Env) (iptr : Packet) (hwDir : ℤ) : Decision :=
  let o := env.options
  if (ipV iptr=4 ∧ ¬o.netfilter) ∨ (ipV iptr=6 ∧ ¬o.netfilter6) then
    directionUnfiltered env iptr hwDir
  else if ipV iptr=4 ∧ o.netfilter then
    directionFiltered (inFilterNet o (ipSrc iptr)) (inFilterNet o (ipDst iptr))
  else if ipV iptr=6 ∧ o.netfilter6 then
    directionFiltered (inFilterNet6 o (ip6Src iptr)) (inFilterNet6 o (ip6Dst iptr))
  else .unassigned

/-- The test that drops link-local IPv6 packets. -/
def dropLinkLocal (env : Env) (iptr : Packet) : Bool :=
  decide (ipV iptr=6) && !env.options.linkLocal &&
    (in6IsAddrLinklocal (ip6Dst iptr) || in6IsAddrLinklocal (ip6Src iptr))

/-- `ap.protocol` is set after the direction branches; other versions keep
what the pair held. -/
def setProtocol (iptr : Packet) (ap : AddrPair) : AddrPair :=
  if ipV iptr=4 then {ap with protocol := (ipP iptr).toUInt16}
  else if ipV iptr=6 then {ap with protocol := (ip6Nxt iptr).toUInt16}
  else ap

/-- Packet length: `ip_len`, or `ip6_plen` plus the fixed header. -/
def packetLen (iptr : Packet) : ℕ :=
  if ipV iptr=4 then (ntohs iptr 2).toNat else (ntohs iptr 4).toNat+40

/-- The packet's source is the first endpoint of the pair. -/
def sourceIsFirst (iptr : Packet) (ap : AddrPair) : Bool :=
  decide ((ipV iptr=4 ∧ ipSrc iptr=ap.src) ∨ (ipV iptr=6 ∧ ip6Src iptr=ap.src6))

/-- Everything the counters need to know about a packet that is not dropped. -/
structure Accounted where
  /-- Flow key. -/
  key : AddrPair
  /-- The bytes go to the record's `sent` side. -/
  sent : Bool
  /-- The bytes go to the `sent` side of the totals. -/
  outgoing : Bool
  /-- Bytes counted. -/
  len : ℕ

/-- The data of a packet accounted under a pair whose protocol is still unset. -/
def accountAs (iptr : Packet) (ap : AddrPair) (direction : Bool) : Accounted :=
  let ap := setProtocol iptr ap
  ⟨ap,sourceIsFirst iptr ap,direction,packetLen iptr⟩

/-- The decision part of `handle_ip_packet`: `none` when it returns early. A
packet that no branch assigned keeps the zeroed pair and counts as incoming. -/
def account (env : Env) (iptr : Packet) (hwDir : ℤ) : Option Accounted :=
  match decideDirection env iptr hwDir with
  | .drop => none
  | .assign flip direction =>
    if dropLinkLocal env iptr then none
    else some (accountAs iptr (assignAddrPair iptr flip) direction)
  | .unassigned =>
    if dropLinkLocal env iptr then none
    else some (accountAs iptr AddrPair.zero false)

/-- An IPv4 packet with an empty payload. -/
def ip4Packet (protocol : UInt8) (src dst : InAddr) : Packet := fun i =>
  if i=0 then 0x45
  else if i=3 then 20
  else if i=9 then protocol
  else if h : 12 ≤ i ∧ i<16 then src ⟨i-12,by omega⟩
  else if h : 16 ≤ i ∧ i<20 then dst ⟨i-16,by omega⟩
  else 0

/-- An IPv6 packet with an empty payload. -/
def ip6Packet (nextHeader : UInt8) (src dst : In6Addr) : Packet := fun i =>
  if i=0 then 0x60
  else if i=6 then nextHeader
  else if h : 8 ≤ i ∧ i<24 then src ⟨i-8,by omega⟩
  else if h : 24 ≤ i ∧ i<40 then dst ⟨i-24,by omega⟩
  else 0

/-- Header fields of an IPv6 packet with given addresses. -/
theorem ip6Packet_fields (nextHeader : UInt8) (src dst : In6Addr) :
    ipV (ip6Packet nextHeader src dst)=6 ∧ ip6Src (ip6Packet nextHeader src dst)=src ∧
      ip6Dst (ip6Packet nextHeader src dst)=dst := by
  refine ⟨by simp only [ipV,ip6Packet,if_true]; decide,funext fun j => ?_,funext fun j => ?_⟩
  · have hj := j.isLt
    simp only [ip6Src,ip6Packet]
    rw [if_neg (by omega),if_neg (by omega),dif_pos ⟨by omega,by omega⟩]
    congr 1
    ext
    simp
  · have hj := j.isLt
    simp only [ip6Dst,ip6Packet]
    rw [if_neg (by omega),if_neg (by omega),dif_neg (by omega),dif_pos ⟨by omega,by omega⟩]
    congr 1
    ext
    simp

/-- The packet is IPv4 or IPv6. -/
def IsIp (iptr : Packet) : Prop := ipV iptr=4 ∨ ipV iptr=6

/-- Source address, as a key stores it, and source port. -/
def srcEnd (iptr : Packet) : In6Addr×UInt16 :=
  if ipV iptr=4 then (in6OfIn (ipSrc iptr),(ipPorts iptr).1) else (ip6Src iptr,(ip6Ports iptr).1)

/-- Destination address, as a key stores it, and destination port. -/
def dstEnd (iptr : Packet) : In6Addr×UInt16 :=
  if ipV iptr=4 then (in6OfIn (ipDst iptr),(ipPorts iptr).2) else (ip6Dst iptr,(ip6Ports iptr).2)

/-- Address family of an IP packet. -/
def packetFamily (iptr : Packet) : AddressFamily := if ipV iptr=4 then .inet else .inet6

/-- Protocol field of an IP packet. -/
def packetProtocol (iptr : Packet) : UInt16 :=
  if ipV iptr=4 then (ipP iptr).toUInt16 else (ip6Nxt iptr).toUInt16

/-- The key with a packet's endpoints in the given order. -/
def pairOf (iptr : Packet) (first second : In6Addr×UInt16) : AddrPair :=
  ⟨packetFamily iptr,packetProtocol iptr,first.2,first.1,second.2,second.1⟩

/-- Key of an IP packet for a flip argument of `assign_addr_pair`. -/
def flowKey (iptr : Packet) (flip : Bool) : AddrPair :=
  if flip then pairOf iptr (dstEnd iptr) (srcEnd iptr) else pairOf iptr (srcEnd iptr) (dstEnd iptr)

variable {env : Env} {iptr : Packet} {hwDir : ℤ}

/-- The two versions exclude each other. -/
theorem not_v4_of_v6 (h : ipV iptr=6) : ipV iptr≠4 := by
  rw [h]
  decide

/-- Embedding IPv4 addresses in the union loses nothing. -/
theorem in6OfIn_injective : Function.Injective in6OfIn := by
  intro a b h
  rw [←inOfIn6_in6OfIn a,h,inOfIn6_in6OfIn]

/-- An assigned pair with its protocol is the key of the packet's endpoints. -/
theorem assign_eq_flowKey (h : IsIp iptr) (flip : Bool) :
    setProtocol iptr (assignAddrPair iptr flip)=flowKey iptr flip := by
  rcases h with h|h
  · cases flip <;> simp [setProtocol,assignAddrPair,flowKey,pairOf,packetFamily,packetProtocol,
      srcEnd,dstEnd,h]
  · cases flip <;> simp [setProtocol,assignAddrPair,flowKey,pairOf,packetFamily,packetProtocol,
      srcEnd,dstEnd,h]

/-- The packet's source is the key's first endpoint when the key is not
flipped, and otherwise only if both addresses are the same. -/
theorem sourceIsFirst_flowKey (h : IsIp iptr) (flip : Bool) :
    sourceIsFirst iptr (flowKey iptr flip)=
      (!flip || decide ((srcEnd iptr).1=(dstEnd iptr).1)) := by
  rcases h with h|h
  · cases flip <;> simp [sourceIsFirst,flowKey,pairOf,srcEnd,dstEnd,h,AddrPair.src,
      in6OfIn_injective.eq_iff]
  · cases flip <;> simp [sourceIsFirst,flowKey,pairOf,srcEnd,dstEnd,h]

/-- A packet accounted with an assigned pair: its key and side. -/
theorem accountAs_assign (h : IsIp iptr) (flip direction : Bool) :
    accountAs iptr (assignAddrPair iptr flip) direction=
      ⟨flowKey iptr flip,!flip || decide ((srcEnd iptr).1=(dstEnd iptr).1),direction,
        packetLen iptr⟩ := by
  simp only [accountAs,assign_eq_flowKey h,sourceIsFirst_flowKey h]

/-- Only IP packets reach a branch that assigns a pair or drops the packet. -/
theorem isIp_of_decided (h : decideDirection env iptr hwDir≠.unassigned) : IsIp iptr := by
  by_contra hn
  simp only [IsIp,not_or] at hn
  exact h (by simp [decideDirection,hn.1,hn.2])

/-- Every accounted packet was either assigned a pair or left unassigned. -/
theorem account_cases {a : Accounted} (h : account env iptr hwDir=some a) :
    dropLinkLocal env iptr=false ∧
      ((∃ flip direction,decideDirection env iptr hwDir=.assign flip direction ∧
          a=accountAs iptr (assignAddrPair iptr flip) direction) ∨
        (decideDirection env iptr hwDir=.unassigned ∧ a=accountAs iptr AddrPair.zero false)) := by
  unfold account at h
  cases hd : decideDirection env iptr hwDir with
  | drop => simp [hd] at h
  | assign flip direction =>
    cases hl : dropLinkLocal env iptr with
    | true => simp [hd,hl] at h
    | false => exact ⟨rfl,.inl ⟨flip,direction,rfl,by simpa [hd,hl] using h.symm⟩⟩
  | unassigned =>
    cases hl : dropLinkLocal env iptr with
    | true => simp [hd,hl] at h
    | false => exact ⟨rfl,.inr ⟨rfl,by simpa [hd,hl] using h.symm⟩⟩

/-- The direction does not rest on the numerical order of the addresses: it is
given by the hardware, by the interface's own address or by a net filter. -/
def DirectionFixed (env : Env) (iptr : Packet) (hwDir : ℤ) : Prop :=
  hwDir=0 ∨ hwDir=1 ∨
    (ipV iptr=4 ∧ (env.options.netfilter ∨ ipAddrMatch env (ipSrc iptr) ∨
      ipAddrMatch env (ipDst iptr))) ∨
    (ipV iptr=6 ∧ (env.options.netfilter6 ∨ ip6AddrMatch env (ip6Src iptr) ∨
      ip6AddrMatch env (ip6Dst iptr)))

/-- The second packet is the first one with its endpoints exchanged. -/
structure Swapped (p p' : Packet) : Prop where
  /-- Same IP version. -/
  version : ipV p'=ipV p
  /-- Same transport protocol. -/
  protocol : packetProtocol p'=packetProtocol p
  /-- The new source is the old destination. -/
  src : srcEnd p'=dstEnd p
  /-- The new destination is the old source. -/
  dst : dstEnd p'=srcEnd p

/-- Exchange hardware directions 0 and 1. -/
def swapDir (hwDir : ℤ) : ℤ := if hwDir=0 then 1 else if hwDir=1 then 0 else hwDir

/-- Exchange the two address fields of the given width from `start` on, and
the two port fields at `offset` if there are any. -/
def swapFields (start width offset : ℕ) (ported : Bool) (iptr : Packet) : Packet := fun i =>
  if start ≤ i ∧ i<start+width then iptr (i+width)
  else if start+width ≤ i ∧ i<start+2*width then iptr (i-width)
  else if ported ∧ offset ≤ i ∧ i<offset+2 then iptr (i+2)
  else if ported ∧ offset+2 ≤ i ∧ i<offset+4 then iptr (i-2)
  else iptr i

/-- The protocol has ports. -/
def hasPorts (protocol : UInt8) : Bool := decide (protocol=ipprotoTcp ∨ protocol=ipprotoUdp)

/-- Exchange the addresses, and the ports if the protocol has them. -/
def swapPacket (iptr : Packet) : Packet :=
  if ipV iptr=4 then swapFields 12 4 (ipHl iptr*4) (hasPorts (ipP iptr)) iptr
  else swapFields 8 16 40 (hasPorts (ip6Nxt iptr)) iptr

section SwapFields

variable {start width offset : ℕ} {ported : Bool}

/-- Swapping leaves the bytes before the addresses. -/
theorem swapFields_low (ho : start+2*width≤offset) {i : ℕ} (hi : i<start) :
    swapFields start width offset ported iptr i=iptr i := by
  unfold swapFields
  repeat rw [if_neg (by omega)]

/-- The first address field receives the second one. -/
theorem swapFields_src {j : ℕ} (hj : j<width) :
    swapFields start width offset ported iptr (start+j)=iptr (start+width+j) := by
  unfold swapFields
  rw [if_pos (by omega),Nat.add_right_comm]

/-- The second address field receives the first one. -/
theorem swapFields_dst {j : ℕ} (hj : j<width) :
    swapFields start width offset ported iptr (start+width+j)=iptr (start+j) := by
  unfold swapFields
  rw [if_neg (by omega),if_pos (by omega)]
  congr 1
  omega

/-- The port fields are exchanged, whatever the protocol, or not read at all. -/
theorem swapFields_ports (ho : start+2*width≤offset) {protocol : UInt8} :
    transportPorts (swapFields start width offset (hasPorts protocol) iptr) protocol offset=
      (transportPorts iptr protocol offset).swap := by
  by_cases hu : protocol=ipprotoTcp ∨ protocol=ipprotoUdp
  · have hp : hasPorts protocol=true := decide_eq_true hu
    have h0 (k : ℕ) (hk : k<2) : swapFields start width offset true iptr (offset+k)=
        iptr (offset+2+k) := by
      unfold swapFields
      rw [if_neg (by omega),if_neg (by omega),if_pos ⟨rfl,by omega,by omega⟩,Nat.add_right_comm]
    have h2 (k : ℕ) (hk : k<2) : swapFields start width offset true iptr (offset+2+k)=
        iptr (offset+k) := by
      unfold swapFields
      rw [if_neg (by omega),if_neg (by omega),if_neg (by omega),if_pos ⟨rfl,by omega,by omega⟩]
      congr 1
      omega
    have h00 : swapFields start width offset true iptr offset=iptr (offset+2) := h0 0 (by omega)
    have h20 : swapFields start width offset true iptr (offset+2)=iptr offset := h2 0 (by omega)
    simp only [transportPorts,hu,hp,if_true,Prod.swap_prod_mk,ntohs,h0 1 (by omega),
      h2 1 (by omega),h00,h20]
  · simp only [transportPorts,hu,if_false,Prod.swap_prod_mk]

end SwapFields

/-- Exchanging the fields of an IP packet with a complete header exchanges its
endpoints and keeps everything else that is read. -/
theorem swapPacket_swapped (h : IsIp iptr) (hl : ipV iptr=4→5 ≤ ipHl iptr) :
    Swapped iptr (swapPacket iptr) := by
  rcases h with h|h
  · have ho : 12+2*4 ≤ ipHl iptr*4 := by have := hl h; omega
    have he : swapPacket iptr=swapFields 12 4 (ipHl iptr*4) (hasPorts (ipP iptr)) iptr := if_pos h
    have h0 : swapPacket iptr 0=iptr 0 := by rw [he]; exact swapFields_low ho (by omega)
    have hp : ipP (swapPacket iptr)=ipP iptr := by rw [he]; exact swapFields_low ho (by omega)
    have hv : ipV (swapPacket iptr)=4 := by rw [ipV,h0,←ipV,h]
    have hs : ipSrc (swapPacket iptr)=ipDst iptr := by
      rw [he]
      exact funext fun j => swapFields_src j.isLt
    have hd : ipDst (swapPacket iptr)=ipSrc iptr := by
      rw [he]
      exact funext fun j => swapFields_dst j.isLt
    have hports : ipPorts (swapPacket iptr)=(ipPorts iptr).swap := by
      rw [ipPorts,hp,ipHl,h0,←ipHl,he]
      exact swapFields_ports ho
    refine ⟨hv.trans h.symm,?_,?_,?_⟩
    · simp only [packetProtocol,hv,h,if_true,hp]
    · simp only [srcEnd,dstEnd,hv,h,if_true,hports,hs,Prod.fst_swap]
    · simp only [srcEnd,dstEnd,hv,h,if_true,hports,hd,Prod.snd_swap]
  · have h4 := not_v4_of_v6 h
    have he : swapPacket iptr=swapFields 8 16 40 (hasPorts (ip6Nxt iptr)) iptr := if_neg h4
    have h0 : swapPacket iptr 0=iptr 0 := by rw [he]; exact swapFields_low (by omega) (by omega)
    have hp : ip6Nxt (swapPacket iptr)=ip6Nxt iptr := by
      rw [he]
      exact swapFields_low (by omega) (by omega)
    have hv : ipV (swapPacket iptr)=6 := by rw [ipV,h0,←ipV,h]
    have hv4 := not_v4_of_v6 hv
    have hs : ip6Src (swapPacket iptr)=ip6Dst iptr := by
      rw [he]
      exact funext fun j => swapFields_src j.isLt
    have hd : ip6Dst (swapPacket iptr)=ip6Src iptr := by
      rw [he]
      exact funext fun j => swapFields_dst j.isLt
    have hports : ip6Ports (swapPacket iptr)=(ip6Ports iptr).swap := by
      rw [ip6Ports,hp,he]
      exact swapFields_ports (by omega)
    refine ⟨hv.trans h.symm,?_,?_,?_⟩
    · simp only [packetProtocol,hv4,h4,if_false,hp]
    · simp only [srcEnd,dstEnd,hv4,h4,if_false,hports,hs,Prod.fst_swap]
    · simp only [srcEnd,dstEnd,hv4,h4,if_false,hports,hd,Prod.snd_swap]

/-- A net filter treats the two directions alike. -/
theorem directionFiltered_swap (a b : Bool) :
    (directionFiltered a b=.drop ∧ directionFiltered b a=.drop) ∨
      ∃ flip x y,directionFiltered a b=.assign flip x ∧
        directionFiltered b a=.assign (!flip) y := by
  cases a <;> cases b <;> simp [directionFiltered]

/-- Without a net filter the two directions of an IPv4 conversation are
dropped together or assigned with opposite flips. -/
theorem directionUnfiltered_swap_v4 (env : Env) {p p' : Packet} (h : ipV p=4) (hv : ipV p'=4)
    (hs : ipSrc p'=ipDst p) (hd : ipDst p'=ipSrc p) (hne : ipSrc p≠ipDst p) (d : ℤ) :
    (directionUnfiltered env p d=.drop ∧ directionUnfiltered env p' (swapDir d)=.drop) ∨
      ∃ flip x y,directionUnfiltered env p d=.assign flip x ∧
        directionUnfiltered env p' (swapDir d)=.assign (!flip) y := by
  have hn : ∀ a b,ipAddrMatch env a=true→ipAddrMatch env b=true→a=b := by
    intro a b ha hb
    simp only [ipAddrMatch,Bool.and_eq_true,decide_eq_true_iff] at ha hb
    rw [ha.2,hb.2]
  have ho : sAddr (ipSrc p)<sAddr (ipDst p) ↔ ¬sAddr (ipDst p)<sAddr (ipSrc p) := by
    have hi : (sAddr (ipSrc p)).toNat≠(sAddr (ipDst p)).toNat :=
      fun he => hne (sAddr_injective (UInt32.toNat_inj.mp he))
    rw [UInt32.lt_iff_toNat_lt,UInt32.lt_iff_toNat_lt]
    omega
  unfold directionUnfiltered swapDir
  by_cases h1 : d=1
  · simp [h1]
  by_cases h0 : d=0
  · simp [h0]
  by_cases hps : ipAddrMatch env (ipSrc p)=true
  · have hpd : ipAddrMatch env (ipDst p)≠true := fun hb => hne (hn _ _ hps hb)
    simp [h,hv,hs,hd,h0,h1,hps,hpd]
  by_cases hpd : ipAddrMatch env (ipDst p)=true
  · simp [h,hv,hs,h0,h1,hps,hpd]
  by_cases hc : env.options.promiscuousButChoosy=true
  · simp [h,hv,hs,hd,h0,h1,hps,hpd,hc]
  by_cases hl : sAddr (ipDst p)<sAddr (ipSrc p)
  · simp [h,hv,hs,hd,h0,h1,hps,hpd,hc,hl,ho]
  · simp [h,hv,hs,hd,h0,h1,hps,hpd,hc,hl,ho]

/-- Swapping the ends of an IPv6 packet whose direction is fixed turns its direction. -/
theorem directionUnfiltered_swap_v6 (env : Env) {p p' : Packet} (h : ipV p=6) (hv : ipV p'=6)
    (hs : ip6Src p'=ip6Dst p) (hd : ip6Dst p'=ip6Src p) (hne : ip6Src p≠ip6Dst p) (d : ℤ)
    (hf : d=0 ∨ d=1 ∨ ip6AddrMatch env (ip6Src p) ∨ ip6AddrMatch env (ip6Dst p)) :
    ∃ flip x y,directionUnfiltered env p d=.assign flip x ∧
      directionUnfiltered env p' (swapDir d)=.assign (!flip) y := by
  have hn : ∀ a b,ip6AddrMatch env a=true→ip6AddrMatch env b=true→a=b := by
    intro a b ha hb
    simp only [ip6AddrMatch,Bool.and_eq_true,decide_eq_true_iff] at ha hb
    rw [ha.2,hb.2]
  unfold directionUnfiltered swapDir
  by_cases h1 : d=1
  · simp [h1]
  by_cases h0 : d=0
  · simp [h0]
  by_cases hps : ip6AddrMatch env (ip6Src p)=true
  · have hpd : ip6AddrMatch env (ip6Dst p)≠true := fun hb => hne (hn _ _ hps hb)
    simp [h,hv,hs,hd,h0,h1,hps,hpd]
  · have hpd : ip6AddrMatch env (ip6Dst p)=true := by simpa [h0,h1,hps] using hf
    simp [h,hv,hs,h0,h1,hps,hpd]

/-- Exchanging the endpoints and the hardware direction exchanges the flip. -/
theorem decideDirection_swap {p p' : Packet} (hs : Swapped p p')
    (hne : (srcEnd p).1≠(dstEnd p).1) (d : ℤ)
    (hp : ipV p=4 ∨ (ipV p=6 ∧ DirectionFixed env p d)) :
    (decideDirection env p d=.drop ∧ decideDirection env p' (swapDir d)=.drop) ∨
      ∃ flip x y,decideDirection env p d=.assign flip x ∧
        decideDirection env p' (swapDir d)=.assign (!flip) y := by
  have hsrc := congrArg Prod.fst hs.src
  have hdst := congrArg Prod.fst hs.dst
  rcases hp with h|⟨h,hf⟩
  · have hv := hs.version.trans h
    simp only [srcEnd,dstEnd,h,hv,if_true,in6OfIn_injective.eq_iff] at hsrc hdst
    simp only [srcEnd,dstEnd,h,if_true,ne_eq,in6OfIn_injective.eq_iff] at hne
    cases hnf : env.options.netfilter with
    | false =>
      have hu := directionUnfiltered_swap_v4 env h hv hsrc hdst hne d
      simpa [decideDirection,h,hv,hnf] using hu
    | true =>
      have hu := directionFiltered_swap (inFilterNet env.options (ipSrc p))
        (inFilterNet env.options (ipDst p))
      simpa [decideDirection,h,hv,hnf,hsrc,hdst] using hu
  · have hv := hs.version.trans h
    simp only [srcEnd,dstEnd,not_v4_of_v6 h,not_v4_of_v6 hv,if_false] at hsrc hdst
    simp only [srcEnd,dstEnd,not_v4_of_v6 h,if_false] at hne
    cases hnf : env.options.netfilter6 with
    | false =>
      have hu := directionUnfiltered_swap_v6 env h hv hsrc hdst hne d
        (by simpa [DirectionFixed,h,hnf] using hf)
      simpa [decideDirection,h,hv,hnf] using Or.inr hu
    | true =>
      have hu := directionFiltered_swap (inFilterNet6 env.options (ip6Src p))
        (inFilterNet6 env.options (ip6Dst p))
      simpa [decideDirection,h,hv,hnf,hsrc,hdst] using hu

/-- The link-local test does not depend on the order of the endpoints. -/
theorem dropLinkLocal_swap (env : Env) {p p' : Packet} (hs : Swapped p p') :
    dropLinkLocal env p'=dropLinkLocal env p := by
  by_cases h : ipV p=6
  · have hv := hs.version.trans h
    have hsrc := congrArg Prod.fst hs.src
    have hdst := congrArg Prod.fst hs.dst
    simp only [srcEnd,dstEnd,not_v4_of_v6 h,not_v4_of_v6 hv,if_false] at hsrc hdst
    simp only [dropLinkLocal,h,hv,hsrc,hdst,Bool.or_comm (in6IsAddrLinklocal (ip6Src p))]
  · simp [dropLinkLocal,h,hs.version]

/-- A swapped packet with the opposite flip has the same key. -/
theorem flowKey_swap {p p' : Packet} (hs : Swapped p p') (flip : Bool) :
    flowKey p' (!flip)=flowKey p flip := by
  have hf : packetFamily p'=packetFamily p := by simp only [packetFamily,hs.version]
  cases flip <;> simp [flowKey,pairOf,hf,hs.protocol,hs.src,hs.dst]

/-- Both directions of a conversation are dropped together; when they are
accounted they share one key and take opposite sides of its record. -/
theorem conversation_one_flow (env : Env) {p p' : Packet} (d : ℤ) (hs : Swapped p p')
    (hne : (srcEnd p).1≠(dstEnd p).1) (hp : ipV p=4 ∨ (ipV p=6 ∧ DirectionFixed env p d)) :
    (account env p d=none ↔ account env p' (swapDir d)=none) ∧
      ∀ a a',account env p d=some a→account env p' (swapDir d)=some a'→
        a'.key=a.key ∧ a'.sent=!a.sent := by
  have hi : IsIp p := hp.imp_right And.left
  have hi' : IsIp p' := by simpa only [IsIp,hs.version] using hi
  have hl := dropLinkLocal_swap env hs
  have hne' : ¬(srcEnd p').1=(dstEnd p').1 := by
    rw [hs.src,hs.dst]
    exact Ne.symm hne
  rcases decideDirection_swap hs hne d hp with ⟨h,h'⟩|⟨flip,x,y,h,h'⟩
  · simp [account,h,h']
  · simp only [account,h,h',hl]
    cases dropLinkLocal env p with
    | true => simp
    | false =>
      simp only [Bool.false_eq_true,if_false,Option.some.injEq,accountAs_assign hi,
        accountAs_assign hi',hne,hne',decide_false,Bool.or_false]
      refine ⟨by simp,?_⟩
      rintro a a' rfl rfl
      exact ⟨flowKey_swap hs flip,rfl⟩

/-- A UDP packet from 10.0.0.1 to 10.0.0.2 and its answer. -/
theorem conversation_one_flow_udp :
    let p := ip4Packet ipprotoUdp ![10,0,0,1] ![10,0,0,2]
    (account bareEnv p (-1)=none ↔ account bareEnv (swapPacket p) (swapDir (-1))=none) ∧
      ∀ a a',account bareEnv p (-1)=some a→account bareEnv (swapPacket p) (swapDir (-1))=some a'→
        a'.key=a.key ∧ a'.sent=!a.sent :=
  conversation_one_flow bareEnv (-1)
    (swapPacket_swapped (.inl (by decide)) (fun _ => by decide)) (by decide) (.inl (by decide))

end IftopColor.PacketDirection
