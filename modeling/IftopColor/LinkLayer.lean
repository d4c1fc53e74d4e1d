import IftopColor.History
import IftopColor.ReadLog

/-!
# The link-layer handlers

A handler finds the IP header behind the header of its link type and derives a
direction from the latter; `handle_ip_packet` does the rest. A handler is
therefore a computation on the captured frame that says where it calls
`handle_ip_packet` and with which direction, if it does, and which bytes of the
frame it has read to find out.

Every standard framing of an IP packet is handled as the packet itself, except
that the PPP handler does not know the protocol number of IPv6.
-/

namespace IftopColor.LinkLayer

open NetBytes AddrHash Options PacketDirection History ReadLog ReadLog.Reads

/-- A hardware address. -/
abbrev Mac := Fin 6→UInt8

/-- The Ethernet broadcast address. -/
def broadcast : Mac := fun _ => 0xff

/-- Globals that only the handlers read. -/
structure LinkEnv where
  /-- `have_hw_addr`. -/
  haveHwAddr : Bool
  /-- `if_hw_addr`. -/
  ifHwAddr : Mac

/-- Offset and direction with which `handle_ip_packet` is called, if it is. -/
abbrev Handler := Reads UInt8 (Option (ℕ×ℤ))

/-- A 16-bit value in network byte order. -/
def half (i : ℕ) : Reads UInt8 UInt16 := do
  let hi ← cell i
  let lo ← cell (i+1)
  return (hi.toUInt16 <<< 8) ||| lo.toUInt16

/-- `memcmp` of the six bytes at an offset with a hardware address. -/
def macIs (i : ℕ) (addr : Mac) : Reads UInt8 Bool := do
  let host ← block i 6
  return decide (host=addr)

/-- `handle_raw_packet`. -/
def handleRawPacket : Handler := return some (0,-1)

/-- `handle_null_packet`. -/
def handleNullPacket : Handler := return some (4,-1)

/-- `LLCSAP_SNAP`. -/
def llcsapSnap : UInt8 := 0xaa

/-- `LLC_UI`. -/
def llcUi : UInt8 := 0x03

/-- `OUI_ENCAP_ETHER`. -/
def ouiEncapEther : UInt32 := 0x000000

/-- `OUI_CISCO_90`. -/
def ouiCisco90 : UInt32 := 0x0000f8

/-- `OUI_APPLETALK`. -/
def ouiAppletalk : UInt32 := 0x080007

/-- `ETHERTYPE_ATALK`. -/
def ethertypeAtalk : UInt16 := 0x809b

/-- `EXTRACT_24BITS`. -/
def extract24Bits (i : ℕ) : Reads UInt8 UInt32 := do
  let b0 ← cell i
  let b1 ← cell (i+1)
  let b2 ← cell (i+2)
  return (b0.toUInt32 <<< 16) ||| (b1.toUInt32 <<< 8) ||| b2.toUInt32

/-- `handle_llc_packet` on the header at an offset; `struct llc` has eight bytes. -/
def handleLlcPacket (llc : ℕ) (dir : ℤ) : Handler := do
  let ssap ← cell (llc+1)
  if ssap≠llcsapSnap then return none
  let dsap ← cell llc
  if dsap≠llcsapSnap then return none
  let llcui ← cell (llc+2)
  if llcui≠llcUi then return none
  let orgcode ← extract24Bits (llc+3)
  let et ← half (llc+6)
  if orgcode=ouiEncapEther ∨ orgcode=ouiCisco90 then return some (llc+8,dir)
  else if orgcode=ouiAppletalk ∧ et=ethertypeAtalk then return some (llc+8,dir)
  else return none

/-- `TOKEN_HDRLEN`. -/
def tokenHdrlen : ℕ := 14

/-- `RIF_LENGTH` of a source-routed frame, zero otherwise. -/
def rifLength : Reads UInt8 ℕ := do
  let shost ← cell 8
  if shost &&& 0x80=0 then return 0
  let rcf ← half 14
  return ((rcf &&& 0x1f00) >>> 8).toNat

/-- Direction of a token ring frame; `have_hw_addr` is not asked. -/
def tokenDirection (l : LinkEnv) : Reads UInt8 ℤ := do
  if ← macIs 8 l.ifHwAddr then return 1
  if ← macIs 2 l.ifHwAddr then return 0
  if ← macIs 2 broadcast then return 0
  return -1

/-- `handle_tokenring_packet`. -/
def handleTokenringPacket (l : LinkEnv) : Handler := do
  let rif ← rifLength
  let dir ← tokenDirection l
  let fc ← cell 1
  if (fc &&& 0xc0) >>> 6=1 then handleLlcPacket (rif+tokenHdrlen) dir
  else return none

/-- `PPP_ADDRESS`. -/
def pppAddress : UInt8 := 0xff

/-- `PPP_IP`. -/
def pppIp : UInt16 := 0x0021

/-- `ETHERTYPE_IP`. -/
def ethertypeIp : UInt16 := 0x0800

/-- `ETHERTYPE_IPV6`. -/
def ethertypeIpv6 : UInt16 := 0x86dd

/-- `handle_ppp_packet`, the only handler that looks at the captured length. -/
def handlePppPacket (caplen : ℕ) : Handler := do
  if caplen<2 then return none
  let address ← cell 0
  if address≠pppAddress then return none
  if caplen<4 then return none
  let proto ← half 2
  if proto=pppIp ∨ proto=ethertypeIp ∨ proto=ethertypeIpv6 then return some (4,-1)
  else return none

/-- `handle_cooked_packet`; `SLL_HDR_LEN` is 16. -/
def handleCookedPacket : Handler := do
  let pkttype ← half 0
  return some (16,if pkttype=0 then 0 else if pkttype=4 then 1 else -1)

/-- `ETHERTYPE_8021Q`. -/
def ethertype8021q : UInt16 := 0x8100

/-- Type and payload offset of an Ethernet frame, past a tag if there is one. -/
def etherPayload : Reads UInt8 (UInt16×ℕ) := do
  let etherType ← half 12
  if etherType=ethertype8021q then
    let etherType ← half 16
    return (etherType,18)
  else return (etherType,14)

/-- Direction implied by the addresses of an Ethernet frame. -/
def ethDirection (l : LinkEnv) : Reads UInt8 ℤ := do
  if ← (if l.haveHwAddr then macIs 6 l.ifHwAddr else return false) then return 1
  if ← (if l.haveHwAddr then macIs 0 l.ifHwAddr else return false) then return 0
  if ← macIs 0 broadcast then return 0
  return -1

/-- `handle_eth_packet` after its call of `tick`. -/
def handleEthPacket (l : LinkEnv) : Handler := do
  let (etherType,payload) ← etherPayload
  if etherType=ethertypeIp ∨ etherType=ethertypeIpv6 then
    let dir ← ethDirection l
    return some (payload,dir)
  else return none

/-- `handle_radiotap_packet`; `it_len` is read in host order, least significant
byte first. -/
def handleRadiotapPacket : Handler := do
  let lo ← cell 2
  let hi ← cell 3
  return some (hi.toNat*256+lo.toNat+34,-1)

/-- Link types with a handler. -/
inductive LinkType where
  | raw
  | null
  | tokenring
  | ppp
  | cooked
  | eth
  | radiotap
  deriving DecidableEq

/-- The handler of a link type. -/
def handler (l : LinkEnv) (caplen : ℕ) : LinkType→Handler
  | .raw => handleRawPacket
  | .null => handleNullPacket
  | .tokenring => handleTokenringPacket l
  | .ppp => handlePppPacket caplen
  | .cooked => handleCookedPacket
  | .eth => handleEthPacket l
  | .radiotap => handleRadiotapPacket

/-- The call of `tick`, which only the Ethernet handler makes. -/
def LinkType.tick (tick : Capture→Capture) (link : LinkType) (s : Capture) : Capture :=
  if link=.eth then tick s else s

/-- What the handler of a link type does to the history. -/
def handlePacket (tick : Capture→Capture) (l : LinkEnv) (env : Env) (link : LinkType) (caplen : ℕ)
    (packet : ℕ→UInt8) (s : Capture) : Capture :=
  match value (handler l caplen link) packet with
  | none => link.tick tick s
  | some (i,dir) => handleIpPacket env (fun j => packet (i+j)) dir (link.tick tick s)

/-- Standard framings of an IP packet, with the free parts of their headers. -/
inductive Framing where
  | raw
  | null (header : Fin 4→UInt8)
  | ethernet (dhost shost : Mac)
  | tagged (dhost shost : Mac) (tci : Fin 2→UInt8)
  | cooked (pkttype : UInt16) (address : Fin 12→UInt8)
  | ppp

/-- The link type of a framing. -/
def Framing.link : Framing→LinkType
  | .raw => .raw
  | .null _ => .null
  | .ethernet _ _ => .eth
  | .tagged _ _ _ => .eth
  | .cooked _ _ => .cooked
  | .ppp => .ppp

/-- The type field of IPv4 and IPv6. -/
def etherTypeBytes (ipv6 : Bool) : List UInt8 := if ipv6 then [0x86,0xdd] else [0x08,0x00]

/-- The header of a framing. -/
def Framing.header (ipv6 : Bool) : Framing→List UInt8
  | .raw => []
  | .null header => List.ofFn header
  | .ethernet dhost shost => List.ofFn dhost++List.ofFn shost++etherTypeBytes ipv6
  | .tagged dhost shost tci =>
    List.ofFn dhost++List.ofFn shost++[0x81,0x00]++List.ofFn tci++etherTypeBytes ipv6
  | .cooked pkttype address =>
    [.ofNat (pkttype.toNat/256),.ofNat pkttype.toNat]++List.ofFn address++etherTypeBytes ipv6
  | .ppp => [0xff,0x03]++if ipv6 then [0x00,0x57] else [0x00,0x21]

/-- The direction that a framing tells. -/
def Framing.direction (l : LinkEnv) : Framing→ℤ
  | .ethernet dhost shost | .tagged dhost shost _ =>
    if l.haveHwAddr ∧ shost=l.ifHwAddr then 1
    else if (l.haveHwAddr ∧ dhost=l.ifHwAddr) ∨ dhost=broadcast then 0
    else -1
  | .cooked pkttype _ =>
    if pkttype=0 then 0 else if pkttype=4 then 1 else -1
  | .raw | .null _ | .ppp => -1

/-- A packet behind a header. -/
def framed (header : List UInt8) (iptr : Packet) : ℕ→UInt8 := fun i =>
  if h : i<header.length then header[i] else iptr (i-header.length)

/-- The packet starts where the header ends. -/
theorem framed_shift (header : List UInt8) (iptr : Packet) :
    (fun j => framed header iptr (header.length+j))=iptr := by
  funext j
  simp [framed]

/-- `ntohs` gives the number whose first byte is the higher one. -/
theorem ntohs_toNat (iptr : Packet) (i : ℕ) :
    (ntohs iptr i).toNat=(iptr i).toNat*256+(iptr (i+1)).toNat := by
  have hhi : (iptr i).toNat<256 := (iptr i).toNat_lt
  have hlo : (iptr (i+1)).toNat<256 := (iptr (i+1)).toNat_lt
  have hor := Nat.shiftLeft_add_eq_or_of_lt (i:=8) hlo (iptr i).toNat
  have hmod : ((iptr i).toNat <<< 8)%2^16=(iptr i).toNat <<< 8 := by
    rw [Nat.shiftLeft_eq]
    omega
  have h8 : (8 : UInt16).toNat%16=8 := rfl
  simp only [ntohs,UInt16.toNat_or,UInt16.toNat_shiftLeft,UInt8.toNat_toUInt16,h8]
  rw [hmod,←hor,Nat.shiftLeft_eq]

/-- A 16-bit value is what `ntohs` returns. -/
@[simp]
theorem value_half (i : ℕ) (mem : ℕ→UInt8) : value (half i) mem=ntohs mem i := by
  simp only [half,value_bind,value_cell,value_pure,ntohs]

/-- A 16-bit value takes two bytes. -/
@[simp]
theorem extent_half (i : ℕ) (mem : ℕ→UInt8) : extent (half i) mem=i+2 := by
  simp only [half,extent_bind,extent_cell,extent_pure]
  omega

/-- A comparison of hardware addresses. -/
@[simp]
theorem value_macIs (i : ℕ) (addr : Mac) (mem : ℕ→UInt8) :
    value (macIs i addr) mem=decide ((fun j : Fin 6 => mem (i+j))=addr) := by
  simp only [macIs,value_bind,value_block,value_pure]

/-- A hardware address takes six bytes. -/
@[simp]
theorem extent_macIs (i : ℕ) (addr : Mac) (mem : ℕ→UInt8) : extent (macIs i addr) mem=i+6 := by
  simp only [macIs,extent_bind,extent_block,extent_pure]
  omega

/-- The direction that the Ethernet handler finds. -/
theorem value_ethDirection (l : LinkEnv) (mem : ℕ→UInt8) {dhost shost : Mac}
    (hd : (fun j : Fin 6 => mem (0+j))=dhost) (hs : (fun j : Fin 6 => mem (6+j))=shost) :
    value (ethDirection l) mem=(Framing.ethernet dhost shost).direction l := by
  unfold ethDirection Framing.direction
  cases l.haveHwAddr <;> simp only [value_bind,value_ite,value_macIs,value_pure,hd,hs] <;> grind

/-- The type field of a header tells IPv6 from IPv4. -/
theorem ntohs_etherType {mem : ℕ→UInt8} {i : ℕ} (ipv6 : Bool)
    (hhi : mem i=if ipv6 then 0x86 else 0x08) (hlo : mem (i+1)=if ipv6 then 0xdd else 0x00) :
    ntohs mem i=if ipv6 then ethertypeIpv6 else ethertypeIp := by
  rw [ntohs,hhi,hlo]
  cases ipv6 <;> rfl

/-- The handler finds the packet of an Ethernet frame of either version behind its header. -/
theorem value_handleEthPacket (l : LinkEnv) (ipv6 : Bool) {mem : ℕ→UInt8} {dhost shost : Mac}
    {payload : ℕ} (hd : (fun j : Fin 6 => mem (0+j))=dhost)
    (hs : (fun j : Fin 6 => mem (6+j))=shost)
    (hp : value etherPayload mem=(if ipv6 then ethertypeIpv6 else ethertypeIp,payload)) :
    value (handleEthPacket l) mem=some (payload,(Framing.ethernet dhost shost).direction l) := by
  unfold handleEthPacket
  simp only [value_bind,value_ite,value_pure,hp,value_ethDirection l mem hd hs]
  cases ipv6 <;> rfl

section Framed

variable (l : LinkEnv) (iptr : Packet)

/-- In an Ethernet frame without a tag the packet begins after 14 bytes. -/
theorem handleEthPacket_ethernet (ipv6 : Bool) (dhost shost : Mac) :
    value (handleEthPacket l) (framed ((Framing.ethernet dhost shost).header ipv6) iptr)=
      some (14,(Framing.ethernet dhost shost).direction l) := by
  generalize hmem : framed ((Framing.ethernet dhost shost).header ipv6) iptr=mem
  have hd : (fun j : Fin 6 => mem (0+j))=dhost := by
    funext j
    rw [←hmem]
    fin_cases j <;> rfl
  have hs : (fun j : Fin 6 => mem (6+j))=shost := by
    funext j
    rw [←hmem]
    fin_cases j <;> rfl
  have ht : ntohs mem 12=if ipv6 then ethertypeIpv6 else ethertypeIp := by
    apply ntohs_etherType ipv6 <;> rw [←hmem] <;> cases ipv6 <;> rfl
  refine value_handleEthPacket l ipv6 hd hs ?_
  unfold etherPayload
  simp only [value_bind,value_half,value_ite,value_pure,ht]
  cases ipv6 <;> rfl

/-- In an Ethernet frame with a tag the packet begins after 18 bytes. -/
theorem handleEthPacket_tagged (ipv6 : Bool) (dhost shost : Mac) (tci : Fin 2→UInt8) :
    value (handleEthPacket l) (framed ((Framing.tagged dhost shost tci).header ipv6) iptr)=
      some (18,(Framing.tagged dhost shost tci).direction l) := by
  generalize hmem : framed ((Framing.tagged dhost shost tci).header ipv6) iptr=mem
  have hd : (fun j : Fin 6 => mem (0+j))=dhost := by
    funext j
    rw [←hmem]
    fin_cases j <;> rfl
  have hs : (fun j : Fin 6 => mem (6+j))=shost := by
    funext j
    rw [←hmem]
    fin_cases j <;> rfl
  have htag : ntohs mem 12=ethertype8021q := by
    have h12 : mem 12=0x81 := by rw [←hmem]; rfl
    have h13 : mem 13=0x00 := by rw [←hmem]; rfl
    rw [ntohs,h12,h13]
    rfl
  have ht : ntohs mem 16=if ipv6 then ethertypeIpv6 else ethertypeIp := by
    apply ntohs_etherType ipv6 <;> rw [←hmem] <;> cases ipv6 <;> rfl
  refine value_handleEthPacket l ipv6 hd hs ?_
  unfold etherPayload
  simp only [value_bind,value_half,value_ite,value_pure,ht,htag]
  rfl

/-- In a cooked frame the packet begins after 16 bytes. -/
theorem handleCookedPacket_cooked (ipv6 : Bool) (pkttype : UInt16) (address : Fin 12→UInt8) :
    value handleCookedPacket (framed ((Framing.cooked pkttype address).header ipv6) iptr)=
      some (16,(Framing.cooked pkttype address).direction l) := by
  have ht : ntohs (framed ((Framing.cooked pkttype address).header ipv6) iptr) 0=pkttype := by
    apply UInt16.toNat.inj
    have h0 : framed ((Framing.cooked pkttype address).header ipv6) iptr 0=
        .ofNat (pkttype.toNat/256) := rfl
    have h1 : framed ((Framing.cooked pkttype address).header ipv6) iptr (0+1)=
        .ofNat pkttype.toNat := rfl
    have hlt : pkttype.toNat<65536 := pkttype.toNat_lt
    rw [ntohs_toNat,h0,h1,UInt8.toNat_ofNat',UInt8.toNat_ofNat']
    omega
  unfold handleCookedPacket
  simp only [value_bind,value_half,value_pure,ht]
  rfl

/-- A PPP frame: the handler passes on IPv4 only. -/
theorem handlePppPacket_ppp (ipv6 : Bool) {caplen : ℕ} (hc : 4 ≤ caplen) :
    value (handlePppPacket caplen) (framed (Framing.ppp.header ipv6) iptr)=
      if ipv6 then none else some (4,-1) := by
  generalize hmem : framed (Framing.ppp.header ipv6) iptr=mem
  have h0 : mem 0=pppAddress := by
    rw [←hmem]
    cases ipv6 <;> rfl
  have hp : ntohs mem 2=if ipv6 then 0x0057 else pppIp := by
    have h2 : mem 2=0x00 := by
      rw [←hmem]
      cases ipv6 <;> rfl
    have h3 : mem 3=if ipv6 then 0x57 else 0x21 := by
      rw [←hmem]
      cases ipv6 <;> rfl
    rw [ntohs,h2,h3]
    cases ipv6 <;> rfl
  unfold handlePppPacket
  simp only [value_bind,value_ite,value_cell,value_half,value_pure,h0,hp]
  rw [if_neg (by omega),if_neg (by simp),if_neg (by omega)]
  cases ipv6 <;> rfl

/-- Every handler finds the framed packet and the direction of its framing,
except that the PPP handler passes over IPv6. -/
theorem handler_framed (framing : Framing) (n : ℕ) :
    let header := framing.header (decide (ipV iptr=6))
    value (handler l (header.length+n) framing.link) (framed header iptr)=
      if framing.link=.ppp ∧ ipV iptr=6 then none else some (header.length,framing.direction l) := by
  dsimp only
  cases framing with
  | raw => rfl
  | null header => simp [Framing.link,handler,handleNullPacket,Framing.header,Framing.direction]
  | ethernet dhost shost =>
    have hlen : ((Framing.ethernet dhost shost).header (decide (ipV iptr=6))).length=14 := by
      cases decide (ipV iptr=6) <;> rfl
    rw [hlen,if_neg (by simp [Framing.link])]
    exact handleEthPacket_ethernet l iptr _ dhost shost
  | tagged dhost shost tci =>
    have hlen : ((Framing.tagged dhost shost tci).header (decide (ipV iptr=6))).length=18 := by
      cases decide (ipV iptr=6) <;> rfl
    rw [hlen,if_neg (by simp [Framing.link])]
    exact handleEthPacket_tagged l iptr _ dhost shost tci
  | cooked pkttype address =>
    have hlen : ((Framing.cooked pkttype address).header (decide (ipV iptr=6))).length=16 := by
      cases decide (ipV iptr=6) <;> rfl
    rw [hlen,if_neg (by simp [Framing.link])]
    exact handleCookedPacket_cooked l iptr _ pkttype address
  | ppp =>
    have hlen : (Framing.ppp.header (decide (ipV iptr=6))).length=4 := by
      cases decide (ipV iptr=6) <;> rfl
    rw [hlen]
    refine (handlePppPacket_ppp iptr _ (by omega)).trans ?_
    by_cases h6 : ipV iptr=6 <;> simp [h6,Framing.link,Framing.direction]

end Framed

/-- Reasons for `handle_ip_packet` to drop an IPv6 packet of unknown direction:
a link-local address, a net filter with both or neither endpoint inside, or the
choosy option with neither endpoint the interface's own. -/
def DropsIp6 (env : Env) (iptr : Packet) : Prop :=
  dropLinkLocal env iptr=true ∨
    (env.options.netfilter6=true ∧
      inFilterNet6 env.options (ip6Src iptr)=inFilterNet6 env.options (ip6Dst iptr)) ∨
    (env.options.netfilter6=false ∧ env.options.promiscuousButChoosy=true ∧
      ip6AddrMatch env (ip6Src iptr)=false ∧ ip6AddrMatch env (ip6Dst iptr)=false)

/-- An IPv6 packet is dropped for one of these reasons only. -/
theorem account_none_iff {env : Env} {iptr : Packet} (h6 : ipV iptr=6) :
    account env iptr (-1)=none ↔ DropsIp6 env iptr := by
  have h4 : ¬(6 : UInt8)=4 := by decide
  unfold account decideDirection directionUnfiltered directionFiltered DropsIp6
  simp only [h6,h4]
  cases env.options.netfilter6 <;> cases dropLinkLocal env iptr <;>
    cases env.options.promiscuousButChoosy <;> cases ip6AddrMatch env (ip6Src iptr) <;>
    cases ip6AddrMatch env (ip6Dst iptr) <;>
    cases inFilterNet6 env.options (ip6Src iptr) <;>
    cases inFilterNet6 env.options (ip6Dst iptr) <;> simp

/-- A counted IPv6 packet changes the totals. -/
theorem recordPacket_ne {env : Env} {iptr : Packet} {hwDir : ℤ} {a : Accounted}
    (h6 : ipV iptr=6) (ha : account env iptr hwDir=some a) (s : Capture) :
    recordPacket env a s≠s := by
  have h4 := not_v4_of_v6 h6
  have hlen : a.len=(ntohs iptr 4).toNat+40 := by
    obtain ⟨-,⟨_,_,-,rfl⟩|⟨-,rfl⟩⟩ := account_cases ha <;> exact if_neg h4
  have hsum (t : HistoryType) : (t.creditTotals s.historyPos a).totalSent+
      (t.creditTotals s.historyPos a).totalRecv=t.totalSent+t.totalRecv+a.len := by
    unfold HistoryType.creditTotals
    split <;> dsimp only <;> omega
  intro he
  obtain ⟨-,-,ht⟩ := recordPacket_ring env a s
  have hs := hsum s.historyTotals
  rw [←ht,he] at hs
  omega

/-- A framed packet is handled as the packet itself, with the direction that the
framing tells, exactly unless it is an IPv6 packet framed by PPP that would have
been counted. -/
theorem transparent_iff (tick : Capture→Capture) (l : LinkEnv) (env : Env) (framing : Framing)
    (iptr : Packet) (n : ℕ) (s : Capture) :
    let header := framing.header (decide (ipV iptr=6))
    handlePacket tick l env framing.link (header.length+n) (framed header iptr) s=
        handleIpPacket env iptr (framing.direction l) (framing.link.tick tick s) ↔
      ¬(framing.link=.ppp ∧ ipV iptr=6 ∧ ¬DropsIp6 env iptr) := by
  intro header
  unfold handlePacket
  rw [handler_framed l iptr framing n]
  by_cases h : framing.link=.ppp ∧ ipV iptr=6
  · rw [if_pos h]
    obtain ⟨hl,h6⟩ := h
    have hf : framing=.ppp := by cases framing <;> simp [Framing.link] at hl ⊢
    subst hf
    have htick : LinkType.tick tick .ppp s=s := rfl
    simp only [Framing.link,Framing.direction,htick,h6,true_and,not_not,←account_none_iff h6]
    constructor
    · intro hs
      by_contra hne
      obtain ⟨a,ha⟩ := Option.ne_none_iff_exists'.mp hne
      refine recordPacket_ne h6 ha s ?_
      rw [handleIpPacket,ha] at hs
      exact hs.symm
    · intro hnone
      rw [handleIpPacket,hnone]
  · rw [if_neg h]
    refine iff_of_true ?_ fun h' => h ⟨h'.1,h'.2.1⟩
    dsimp only [header]
    rw [framed_shift]

/-- An IPv6 packet between two addresses of `2001:db8::/32`. -/
def ppp6Packet : Packet :=
  ip6Packet ipprotoUdp ![0x20,0x01,0x0d,0xb8,0,0,0,0,0,0,0,0,0,0,0,1]
    ![0x20,0x01,0x0d,0xb8,0,0,0,0,0,0,0,0,0,0,0,2]

/-- Framed by PPP it leaves no trace, though `handle_ip_packet` counts its 40 bytes. -/
theorem ppp_loses_ipv6 :
    ipV ppp6Packet=6 ∧
      handlePacket id ⟨false,fun _ => 0⟩ bareEnv .ppp 44
          (framed (Framing.ppp.header true) ppp6Packet) initHistory≠
        handleIpPacket bareEnv ppp6Packet (-1) initHistory := by
  refine ⟨by decide,fun h => ?_⟩
  have hlost : (handlePacket id ⟨false,fun _ => 0⟩ bareEnv .ppp 44
      (framed (Framing.ppp.header true) ppp6Packet) initHistory).historyTotals.totalRecv=0 := by
    decide
  have hcounted : (handleIpPacket bareEnv ppp6Packet (-1) initHistory).historyTotals.totalRecv=40 := by
    decide
  rw [h,hcounted] at hlost
  contradiction

end IftopColor.LinkLayer
