import IftopColor.LinkLayer

/-!
# Reads of a captured frame

The handlers and `handle_ip_packet` once more, now with a log of the bytes they
read. Without the log they are the functions modelled before. Only the PPP
handler compares anything with the captured length, so the code stays inside the
capture exactly if the captured length is at least what the fields on the
taken path need: the fixed IP header in most cases, and the ports behind it for
TCP and UDP.
-/

namespace IftopColor.CaptureBounds

open NetBytes AddrHash Options PacketDirection History ReadLog ReadLog.Reads LinkLayer

/-- `IP_V`. -/
def readVersion : Reads UInt8 UInt8 := do
  let vhl ← cell 0
  return (vhl &&& 0xf0) >>> 4

/-- The ports of a transport header, read for TCP and UDP only. -/
def readPorts (protocol : UInt8) (offset : ℕ) : Reads UInt8 (UInt16×UInt16) := do
  if protocol=ipprotoTcp ∨ protocol=ipprotoUdp then
    let srcPort ← half offset
    let dstPort ← half (offset+2)
    return (srcPort,dstPort)
  else return (0,0)

/-- A pair with the endpoints of a packet, swapped when `flip` is set. -/
def orient (family : AddressFamily) (src dst : In6Addr) (ports : UInt16×UInt16) (flip : Bool) :
    AddrPair :=
  let ap := AddrPair.zero
  if flip=false then
    {ap with
      addressFamily := family
      src6 := src
      srcPort := ports.1
      dst6 := dst
      dstPort := ports.2}
  else
    {ap with
      addressFamily := family
      src6 := dst
      srcPort := ports.2
      dst6 := src
      dstPort := ports.1}

/-- `assign_addr_pair`. -/
def readAddrPair (flip : Bool) : Reads UInt8 AddrPair := do
  let version ← readVersion
  if version=4 then
    let protocol ← cell 9
    let vhl ← cell 0
    let ports ← readPorts protocol ((vhl &&& 0x0f).toNat*4)
    let src ← block 12 4
    let dst ← block 16 4
    return orient .inet (in6OfIn src) (in6OfIn dst) ports flip
  else if version=6 then
    let nxt ← cell 6
    let ports ← readPorts nxt 40
    let src ← block 8 16
    let dst ← block 24 16
    return orient .inet6 src dst ports flip
  else return AddrPair.zero

/-- The comparison of an IPv4 address of the packet with the interface's own. -/
def readIpMatch (env : Env) (version : UInt8) (i : ℕ) : Reads UInt8 Bool := do
  if version=4 ∧ env.haveIpAddr then
    let addr ← block i 4
    return decide (addr=env.ifIpAddr)
  else return false

/-- A word of an IPv6 address. -/
def wordOf (addr : In6Addr) (k : Fin 4) : Bytes 4 := fun j => addr ⟨4*k+j,by omega⟩

/-- Words of an address of the packet, compared one after the other with those of another
address up to the first that differs. -/
def readWordsEqual (addr : In6Addr) (i : ℕ) : List (Fin 4)→Reads UInt8 Bool
  | [] => return true
  | k::ks => do
    let word ← block (i+4*k) 4
    if word=wordOf addr k then readWordsEqual addr i ks
    else return false

/-- `IN6_ARE_ADDR_EQUAL`, which joins the comparisons of the four words with `&&`. -/
def readAddrEqual (addr : In6Addr) (i : ℕ) : Reads UInt8 Bool :=
  readWordsEqual addr i (List.finRange 4)

/-- The comparison of an IPv6 address of the packet with the interface's own. -/
def readIp6Match (env : Env) (version : UInt8) (i : ℕ) : Reads UInt8 Bool := do
  if version=6 ∧ env.haveIp6Addr then
    readAddrEqual env.ifIp6Addr i
  else return false

/-- The branches taken when the net filter is off. -/
def readUnfiltered (env : Env) (version : UInt8) (hwDir : ℤ) : Reads UInt8 Decision := do
  if hwDir=1 then return .assign false true
  if hwDir=0 then return .assign true false
  if ← readIpMatch env version 12 then return .assign false true
  if ← readIpMatch env version 16 then return .assign true false
  if ← readIp6Match env version 8 then return .assign false true
  if ← readIp6Match env version 24 then return .assign true false
  if env.options.promiscuousButChoosy then return .drop
  if version=4 then
    let src ← block 12 4
    let dst ← block 16 4
    if sAddr src < sAddr dst then return .assign true false
    else return .assign false false
  else return .unassigned

/-- The direction sections of `handle_ip_packet`. A net filter looks at both
addresses whatever the first of them is. -/
def readDirection (env : Env) (version : UInt8) (hwDir : ℤ) : Reads UInt8 Decision := do
  let o := env.options
  if (version=4 ∧ ¬o.netfilter) ∨ (version=6 ∧ ¬o.netfilter6) then
    readUnfiltered env version hwDir
  else if version=4 then
    let src ← block 12 4
    let dst ← block 16 4
    return directionFiltered (inFilterNet o src) (inFilterNet o dst)
  else if version=6 then
    let src ← block 8 16
    let dst ← block 24 16
    return directionFiltered (inFilterNet6 o src) (inFilterNet6 o dst)
  else return .unassigned

/-- `IN6_IS_ADDR_LINKLOCAL`, which loads the first word of the address. -/
def readLinklocal (i : ℕ) : Reads UInt8 Bool := do
  let word ← block i 4
  return in6IsAddrLinklocal (in6OfIn word)

/-- The test that drops link-local IPv6 packets. -/
def readDropLinkLocal (env : Env) (version : UInt8) : Reads UInt8 Bool := do
  if version=6 ∧ ¬env.options.linkLocal then
    if ← readLinklocal 24 then return true
    readLinklocal 8
  else return false

/-- `resolve` of an address in the packet: it copies `addr_len` bytes. -/
def readResolve (family : AddressFamily) (i : ℕ) : Reads UInt8 Unit := do
  if family=.inet then
    let _ ← block i 4
  else
    let _ ← block i 16

/-- The protocol, and the addresses that are queued for resolution. Those of IPv4 are copied
before they are passed to `resolve`, those of IPv6 are passed by their places in the packet. -/
def readProtocol (env : Env) (version : UInt8) (ap : AddrPair) : Reads UInt8 AddrPair := do
  if version=4 then
    let protocol ← cell 9
    if env.options.dnsresolution then
      let _ ← block 16 4
      let _ ← block 12 4
      return {ap with protocol := protocol.toUInt16}
    else return {ap with protocol := protocol.toUInt16}
  else if version=6 then
    let nxt ← cell 6
    if env.options.dnsresolution then
      readResolve ap.addressFamily 24
      readResolve ap.addressFamily 8
      return {ap with protocol := nxt.toUInt16}
    else return {ap with protocol := nxt.toUInt16}
  else return ap

/-- Read the length of a packet of either version. -/
def readLen (version : UInt8) : Reads UInt8 ℕ := do
  if version=4 then
    let len ← half 2
    return len.toNat
  else
    let plen ← half 4
    return plen.toNat+40

/-- The comparison of the packet's source with the first endpoint of the pair. -/
def readSourceIsFirst (version : UInt8) (ap : AddrPair) : Reads UInt8 Bool := do
  if version=4 then
    let src ← block 12 4
    return decide (src=ap.src)
  else if version=6 then
    let src ← block 8 16
    return decide (src=ap.src6)
  else return false

/-- What `handle_ip_packet` reads after the direction sections. -/
def readRest (env : Env) (version : UInt8) (ap : AddrPair) (direction : Bool) :
    Reads UInt8 (Option Accounted) := do
  if ← readDropLinkLocal env version then return none
  let ap ← readProtocol env version ap
  let len ← readLen version
  let sent ← readSourceIsFirst version ap
  return some ⟨ap,sent,direction,len⟩

/-- `handle_ip_packet` up to the update of the counters. -/
def readIpPacket (env : Env) (hwDir : ℤ) : Reads UInt8 (Option Accounted) := do
  let version ← readVersion
  match ← readDirection env version hwDir with
  | .drop => return none
  | .assign flip direction =>
    let ap ← readAddrPair flip
    readRest env version ap direction
  | .unassigned => readRest env version AddrPair.zero false

section Values

variable (env : Env) (iptr : Packet) (hwDir : ℤ)

@[simp]
theorem value_readVersion : value readVersion iptr=ipV iptr := by
  simp only [readVersion,value_bind,value_cell,value_pure,ipV]

@[simp]
theorem value_readPorts (protocol : UInt8) (offset : ℕ) :
    value (readPorts protocol offset) iptr=transportPorts iptr protocol offset := by
  simp only [readPorts,value_ite,value_bind,value_half,value_pure]
  rfl

@[simp]
theorem value_readAddrPair (flip : Bool) :
    value (readAddrPair flip) iptr=assignAddrPair iptr flip := by
  simp only [readAddrPair,value_bind,value_ite,value_readVersion,value_cell,value_block,
    value_readPorts,value_pure]
  rfl

/-- Comparisons with the interface's own IPv4 address. -/
theorem value_readIpMatch (version : UInt8) (i : ℕ) :
    value (readIpMatch env version i) iptr=
      (decide (version=4) && ipAddrMatch env fun j : Fin 4 => iptr (i+j)) := by
  simp only [readIpMatch,value_ite,value_bind,value_block,value_pure,ipAddrMatch]
  by_cases hv : version=4 <;> cases env.haveIpAddr <;> simp [hv]

/-- The bytes of a packet at a word's place are that word of the address there. -/
theorem word_packet (i : ℕ) (k : Fin 4) :
    (fun j : Fin 4 => iptr (i+4*k+j))=wordOf (fun j => iptr (i+j)) k := by
  funext j
  rw [wordOf,Nat.add_assoc]

/-- Comparing words of an address in turn tells whether all of them are equal. -/
theorem value_readWordsEqual (addr : In6Addr) (i : ℕ) (ks : List (Fin 4)) :
    value (readWordsEqual addr i ks) iptr=
      decide (∀ k∈ks,wordOf (fun j => iptr (i+j)) k=wordOf addr k) := by
  induction ks with
  | nil => simp [readWordsEqual]
  | cons k ks ih =>
    simp only [readWordsEqual,value_bind,value_block,value_ite,value_pure,ih,word_packet,
      List.forall_mem_cons]
    by_cases hk : wordOf (fun j => iptr (i+j)) k=wordOf addr k <;> simp [hk]

/-- Addresses are equal if all their words are. -/
theorem wordOf_ext {a b : In6Addr} (h : ∀ k,wordOf a k=wordOf b k) : a=b := by
  funext j
  have hj := congrFun (h ⟨j/4,by omega⟩) ⟨j%4,by omega⟩
  simpa only [wordOf,Nat.div_add_mod,Fin.eta] using hj

/-- Comparing all four words tells whether the addresses are equal. -/
theorem value_readAddrEqual (addr : In6Addr) (i : ℕ) :
    value (readAddrEqual addr i) iptr=decide ((fun j : Fin 16 => iptr (i+j))=addr) := by
  rw [readAddrEqual,value_readWordsEqual,decide_eq_decide]
  constructor
  · intro h
    exact wordOf_ext fun k => h k (List.mem_finRange k)
  · intro h k _
    rw [h]

/-- Comparisons with the interface's own IPv6 address. -/
theorem value_readIp6Match (version : UInt8) (i : ℕ) :
    value (readIp6Match env version i) iptr=
      (decide (version=6) && ip6AddrMatch env fun j : Fin 16 => iptr (i+j)) := by
  simp only [readIp6Match,value_ite,value_readAddrEqual,value_pure,ip6AddrMatch]
  by_cases hv : version=6 <;> cases env.haveIp6Addr <;> simp [hv]

/-- The branches without a net filter. -/
theorem value_readUnfiltered :
    value (readUnfiltered env (ipV iptr) hwDir) iptr=directionUnfiltered env iptr hwDir := by
  simp only [readUnfiltered,value_bind,value_ite,value_block,value_pure,value_readIpMatch,
    value_readIp6Match,directionUnfiltered,Bool.and_eq_true,decide_eq_true_eq]
  congr 7
  by_cases h4 : ipV iptr=4
  · simp only [h4,true_and,if_true]
    rfl
  · simp only [h4,false_and,if_false]

/-- The direction sections. -/
@[simp]
theorem value_readDirection :
    value (readDirection env (ipV iptr) hwDir) iptr=decideDirection env iptr hwDir := by
  simp only [readDirection,value_bind,value_ite,value_block,value_pure,value_readUnfiltered]
  unfold decideDirection
  cases hf : env.options.netfilter <;> cases hf6 : env.options.netfilter6 <;>
    by_cases h4 : ipV iptr=4 <;> by_cases h6 : ipV iptr=6 <;> simp [h4,h6,hf,hf6] <;> rfl

/-- Reading the fields of the link-local test gives its answer. -/
@[simp]
theorem value_readDropLinkLocal :
    value (readDropLinkLocal env (ipV iptr)) iptr=dropLinkLocal env iptr := by
  have hdst : value (readLinklocal 24) iptr=in6IsAddrLinklocal (ip6Dst iptr) := rfl
  have hsrc : value (readLinklocal 8) iptr=in6IsAddrLinklocal (ip6Src iptr) := rfl
  simp only [readDropLinkLocal,value_bind,value_ite,value_pure,hdst,hsrc,dropLinkLocal]
  by_cases h6 : ipV iptr=6 <;> cases env.options.linkLocal <;>
    cases in6IsAddrLinklocal (ip6Dst iptr) <;> simp [h6]

/-- What comes after the direction sections. -/
@[simp]
theorem value_readRest (ap : AddrPair) (direction : Bool) :
    value (readRest env (ipV iptr) ap direction) iptr=
      if dropLinkLocal env iptr then none else some (accountAs iptr ap direction) := by
  have hp : value (readProtocol env (ipV iptr) ap) iptr=setProtocol iptr ap := by
    simp only [readProtocol,value_bind,value_ite,value_cell,value_pure,ite_self]
    rfl
  have hl : value (readLen (ipV iptr)) iptr=packetLen iptr := by
    simp only [readLen,value_bind,value_ite,value_half,value_pure]
    rfl
  have hs (ap : AddrPair) : value (readSourceIsFirst (ipV iptr) ap) iptr=sourceIsFirst iptr ap := by
    have hsrc : value (block 12 4) iptr=ipSrc iptr := rfl
    have hsrc6 : value (block 8 16) iptr=ip6Src iptr := rfl
    simp only [readSourceIsFirst,value_bind,value_ite,value_pure,hsrc,hsrc6,sourceIsFirst]
    by_cases h4 : ipV iptr=4
    · simp [h4]
    · by_cases h6 : ipV iptr=6 <;> simp [h4,h6]
  simp only [readRest,value_bind,value_ite,value_pure,value_readDropLinkLocal,hp,hl,hs]
  rfl

/-- Without the log, this is the packet's accounting. -/
theorem value_readIpPacket : value (readIpPacket env hwDir) iptr=account env iptr hwDir := by
  simp only [readIpPacket,value_bind,value_readVersion,value_readDirection]
  unfold account
  cases decideDirection env iptr hwDir with
  | drop => rfl
  | assign flip direction => simp only [value_bind,value_readAddrPair,value_readRest]
  | unassigned => simp only [value_readRest]

end Values

/-- Bytes needed of a transport header with ports, none for other protocols. -/
def portsNeeded (protocol : UInt8) (offset : ℕ) : ℕ :=
  if protocol=ipprotoTcp ∨ protocol=ipprotoUdp then offset+4 else 0

/-- Bytes needed of an IPv4 packet. A packet that the choosy option or the net
filter drops needs no ports. -/
def ip4Needed (env : Env) (iptr : Packet) (hwDir : ℤ) : ℕ :=
  let o := env.options
  let counted := max 20 (portsNeeded (ipP iptr) (ipHl iptr*4))
  if o.netfilter then
    if inFilterNet o (ipSrc iptr)=inFilterNet o (ipDst iptr) then 20 else counted
  else if hwDir=1 ∨ hwDir=0 ∨ ipAddrMatch env (ipSrc iptr) ∨ ipAddrMatch env (ipDst iptr) then counted
  else if o.promiscuousButChoosy then if env.haveIpAddr then 20 else 1
  else counted

/-- Bytes of an address that are compared with another: its words up to the first that
differs. -/
def bytesCompared (a b : In6Addr) : ℕ :=
  4*min 4 (((List.finRange 4).takeWhile fun k => wordOf a k=wordOf b k).length+1)

/-- Bytes needed of an IPv6 packet after the direction sections. The source is compared with
the pair unless the packet is dropped after a look at the first words of both addresses, and
both addresses are copied if they are to be resolved. -/
def ip6RestNeeded (env : Env) (iptr : Packet) : ℕ :=
  let o := env.options
  if dropLinkLocal env iptr then 28
  else if o.dnsresolution then 40
  else if o.linkLocal then 24 else 28

/-- Bytes needed of an IPv6 packet. Without any direction no ports are read, and the destination
only as far as it is compared with the interface's own address. -/
def ip6Needed (env : Env) (iptr : Packet) (hwDir : ℤ) : ℕ :=
  let o := env.options
  let counted := max 40 (portsNeeded (ip6Nxt iptr) 40)
  let looked := if env.haveIp6Addr then 24+bytesCompared (ip6Dst iptr) env.ifIp6Addr else 1
  if o.netfilter6 then
    if inFilterNet6 o (ip6Src iptr)=inFilterNet6 o (ip6Dst iptr) then 40 else counted
  else if hwDir=1 ∨ hwDir=0 ∨ ip6AddrMatch env (ip6Src iptr) ∨ ip6AddrMatch env (ip6Dst iptr) then
    counted
  else if o.promiscuousButChoosy then looked
  else max looked (ip6RestNeeded env iptr)

/-- Bytes needed of a packet by `handle_ip_packet`. -/
def ipNeeded (env : Env) (iptr : Packet) (hwDir : ℤ) : ℕ :=
  if ipV iptr=4 then ip4Needed env iptr hwDir
  else if ipV iptr=6 then ip6Needed env iptr hwDir
  else 6

/-- A packet of version 4 is not of version 6. -/
theorem v4_ne_v6 : ¬(4 : UInt8)=6 := by decide

/-- A packet of version 6 is not of version 4. -/
theorem v6_ne_v4 : ¬(6 : UInt8)=4 := v4_ne_v6 ∘ Eq.symm

section Extents

variable {env : Env} {iptr : Packet} {hwDir : ℤ}

@[simp]
theorem extent_readVersion : extent readVersion iptr=1 := by
  simp [readVersion]

@[simp]
theorem extent_readPorts (protocol : UInt8) (offset : ℕ) :
    extent (readPorts protocol offset) iptr=portsNeeded protocol offset := by
  simp only [readPorts,extent_ite,extent_bind,extent_half,extent_pure,portsNeeded]
  split
  · omega
  · rfl

/-- The addresses of an IPv4 packet and its ports are read from its first bytes. -/
theorem extent_readAddrPair_v4 (h4 : ipV iptr=4) (flip : Bool) :
    extent (readAddrPair flip) iptr=max 20 (portsNeeded (ipP iptr) (ipHl iptr*4)) := by
  simp only [readAddrPair,extent_bind,value_readVersion,extent_readVersion,extent_cell,value_cell,
    extent_readPorts,extent_block,extent_pure,h4,if_true]
  rw [ipP,ipHl]
  omega

/-- The addresses of an IPv6 packet and its ports are read from its first bytes. -/
theorem extent_readAddrPair_v6 (h6 : ipV iptr=6) (flip : Bool) :
    extent (readAddrPair flip) iptr=max 40 (portsNeeded (ip6Nxt iptr) 40) := by
  simp only [readAddrPair,extent_bind,value_readVersion,extent_readVersion,extent_cell,value_cell,
    extent_readPorts,extent_block,extent_pure,h6,v6_ne_v4,if_true,if_false]
  rw [ip6Nxt]
  omega

/-- What comes after the direction sections stays inside an IPv4 header. -/
theorem extent_readRest_v4 (ap : AddrPair) (direction : Bool) :
    extent (readRest env 4 ap direction) iptr ≤ 20 := by
  simp only [readRest,readDropLinkLocal,readProtocol,readLen,readSourceIsFirst,extent_bind,extent_ite,
    extent_cell,extent_block,extent_half,extent_pure,value_pure,v4_ne_v6,false_and,if_true,if_false]
  split_ifs <;> omega

/-- Both addresses are looked at up to their first words unless link-local packets are wanted. -/
theorem extent_readDropLinkLocal_v6 :
    extent (readDropLinkLocal env 6) iptr=if env.options.linkLocal then 0 else 28 := by
  simp only [readDropLinkLocal,readLinklocal,extent_bind,extent_ite,extent_block,extent_pure,
    value_bind,value_pure,true_and]
  cases env.options.linkLocal
  · split_ifs <;> simp_all
  · rfl

/-- An address of another family than IPv4 is copied as a whole. -/
theorem extent_readResolve {family : AddressFamily} (hf : family≠.inet) (i : ℕ) :
    extent (readResolve family i) iptr=i+16 := by
  simp only [readResolve,if_neg hf,extent_bind,extent_block,extent_pure,Nat.max_zero]

/-- What comes after the direction sections of an IPv6 packet whose pair is none of IPv4. -/
theorem extent_readRest_v6 (h6 : ipV iptr=6) {ap : AddrPair} (hf : ap.addressFamily≠.inet)
    (direction : Bool) :
    extent (readRest env 6 ap direction) iptr=ip6RestNeeded env iptr := by
  have hdrop : value (readDropLinkLocal env 6) iptr=dropLinkLocal env iptr := by
    rw [←h6,value_readDropLinkLocal]
  have hlinkLocal : dropLinkLocal env iptr=true→env.options.linkLocal=false := by
    unfold dropLinkLocal
    cases env.options.linkLocal <;> simp
  simp only [readRest,readProtocol,readLen,readSourceIsFirst,extent_bind,extent_ite,extent_cell,
    extent_block,extent_half,extent_pure,hdrop,extent_readDropLinkLocal_v6,extent_readResolve hf,
    v6_ne_v4,if_true,if_false,ip6RestNeeded]
  cases hd : dropLinkLocal env iptr with
  | true => simp [hlinkLocal hd]
  | false => cases env.options.dnsresolution <;> cases env.options.linkLocal <;> simp

/-- No more is needed after the direction sections than the header. -/
theorem ip6RestNeeded_le : ip6RestNeeded env iptr≤40 := by
  unfold ip6RestNeeded
  dsimp only
  split_ifs <;> omega

/-- Some of an address is compared, and no more than there is. -/
theorem bytesCompared_bounds (a b : In6Addr) : 4≤bytesCompared a b ∧ bytesCompared a b≤16 := by
  unfold bytesCompared
  omega

/-- A comparison of addresses stops at the first word that differs. -/
theorem extent_readAddrEqual (addr : In6Addr) (i : ℕ) :
    extent (readAddrEqual addr i) iptr=i+bytesCompared (fun j => iptr (i+j)) addr := by
  have hrange : List.finRange 4=[0,1,2,3] := rfl
  simp only [readAddrEqual,bytesCompared,hrange,readWordsEqual,extent_bind,extent_block,
    value_block,extent_ite,extent_pure,word_packet,List.takeWhile_cons,List.takeWhile_nil,
    decide_eq_true_eq]
  split_ifs <;> simp

/-- A packet of another version is read for its length only. -/
theorem extent_readRest_other {version : UInt8} (h4 : version≠4) (h6 : version≠6) (ap : AddrPair)
    (direction : Bool) : extent (readRest env version ap direction) iptr=6 := by
  simp only [readRest,readDropLinkLocal,readProtocol,readLen,readSourceIsFirst,extent_bind,
    extent_pure,value_pure,h4,h6,false_and,if_false]
  simp

/-- The direction sections look at the addresses of an IPv4 packet at most. -/
theorem extent_readDirection_v4_le : extent (readDirection env 4 hwDir) iptr ≤ 20 := by
  simp only [readDirection,readUnfiltered,readIpMatch,readIp6Match,extent_bind,extent_ite,
    extent_block,extent_pure,value_pure,v4_ne_v6,true_and,false_and,if_true,if_false]
  split_ifs <;> omega

/-- Without a net filter, the choosy option drops IPv4 packets between other hosts. -/
theorem directionUnfiltered_v4_drop (env : Env) (hwDir : ℤ) (h4 : ipV iptr=4) :
    directionUnfiltered env iptr hwDir=.drop ↔
      ¬(hwDir=1 ∨ hwDir=0 ∨ ipAddrMatch env (ipSrc iptr) ∨ ipAddrMatch env (ipDst iptr)) ∧
        env.options.promiscuousButChoosy := by
  unfold directionUnfiltered
  simp only [h4,v4_ne_v6,true_and,false_and,if_true,if_false]
  split_ifs <;> simp_all

/-- Dropping an IPv4 packet takes a look at both addresses if it depends on them. -/
theorem extent_readUnfiltered_v4_drop (h4 : ipV iptr=4)
    (hd : directionUnfiltered env iptr hwDir=.drop) :
    extent (readUnfiltered env 4 hwDir) iptr=if env.haveIpAddr then 20 else 0 := by
  have hsrc : (fun j : Fin 4 => iptr (12+j))=ipSrc iptr := rfl
  have hdst : (fun j : Fin 4 => iptr (16+j))=ipDst iptr := rfl
  obtain ⟨hno,hc⟩ := (directionUnfiltered_v4_drop env hwDir h4).mp hd
  simp only [not_or,Bool.not_eq_true] at hno
  obtain ⟨h1,h0,hs,hd⟩ := hno
  simp only [readUnfiltered,extent_bind,extent_ite,extent_pure,value_readIpMatch,value_readIp6Match,
    hsrc,hdst,hs,hd,h1,h0,hc,v4_ne_v6,decide_true,decide_false,Bool.true_and,Bool.false_and,if_true,
    if_false]
  simp only [readIpMatch,readIp6Match,extent_ite,extent_bind,extent_block,extent_pure,v4_ne_v6,
    true_and,false_and,if_false]
  cases env.haveIpAddr <;> simp

/-- A net filter drops a packet with both or neither endpoint inside. -/
theorem directionFiltered_drop (srcInside dstInside : Bool) :
    directionFiltered srcInside dstInside=.drop ↔ srcInside=dstInside := by
  cases srcInside <;> cases dstInside <;> decide

/-- A net filter leaves no packet without a direction. -/
theorem directionFiltered_ne (srcInside dstInside : Bool) :
    directionFiltered srcInside dstInside≠.unassigned := by
  cases srcInside <;> cases dstInside <;> decide

/-- Every IPv4 packet is dropped or assigned a pair. -/
theorem decideDirection_v4_ne (h4 : ipV iptr=4) : decideDirection env iptr hwDir≠.unassigned := by
  unfold decideDirection directionUnfiltered directionFiltered
  simp only [h4,v4_ne_v6,true_and,false_and,if_true,if_false]
  split_ifs <;> simp_all

/-- What the direction sections need of an IPv4 packet that they drop, and that
other packets need the addresses and ports. -/
theorem ip4Needed_eq (h4 : ipV iptr=4) :
    ip4Needed env iptr hwDir=
      if decideDirection env iptr hwDir=.drop then max 1 (extent (readDirection env 4 hwDir) iptr)
      else max 20 (portsNeeded (ipP iptr) (ipHl iptr*4)) := by
  unfold ip4Needed
  dsimp only
  cases hf : env.options.netfilter with
  | true =>
    have hext : extent (readDirection env 4 hwDir) iptr=20 := by
      simp [readDirection,hf,v4_ne_v6]
    have hdec : decideDirection env iptr hwDir=
        directionFiltered (inFilterNet env.options (ipSrc iptr))
          (inFilterNet env.options (ipDst iptr)) := by
      simp [decideDirection,h4,hf,v4_ne_v6]
    simp only [hext,hdec,directionFiltered_drop,if_true]
    rfl
  | false =>
    have hext : extent (readDirection env 4 hwDir) iptr=extent (readUnfiltered env 4 hwDir) iptr := by
      simp [readDirection,hf]
    have hdec : decideDirection env iptr hwDir=directionUnfiltered env iptr hwDir := by
      simp [decideDirection,h4,hf]
    have hiff := directionUnfiltered_v4_drop env hwDir h4
    rw [hext,hdec]
    by_cases hd : directionUnfiltered env iptr hwDir=.drop
    · obtain ⟨hno,hc⟩ := hiff.mp hd
      rw [if_pos hd,extent_readUnfiltered_v4_drop h4 hd]
      simp only [if_neg hno,hc,if_true]
      cases env.haveIpAddr <;> simp
    · rw [if_neg hd]
      rw [hiff,not_and_or,not_not] at hd
      rcases hd with hd|hc
      · simp [hd]
      · simp [hc]

/-- An IPv4 packet is read exactly as far as `ip4Needed` says. -/
theorem extent_readIpPacket_v4 (h4 : ipV iptr=4) :
    extent (readIpPacket env hwDir) iptr=ip4Needed env iptr hwDir := by
  have hvalue : value (readDirection env 4 hwDir) iptr=decideDirection env iptr hwDir := by
    rw [←h4,value_readDirection]
  have hle : extent (readDirection env 4 hwDir) iptr ≤ 20 := extent_readDirection_v4_le
  rw [ip4Needed_eq h4]
  simp only [readIpPacket,extent_bind,extent_readVersion,value_readVersion,h4,hvalue]
  cases hd : decideDirection env iptr hwDir with
  | drop => simp
  | unassigned => exact absurd hd (decideDirection_v4_ne h4)
  | assign flip direction =>
    have hr : extent (readRest env 4 (assignAddrPair iptr flip) direction) iptr ≤ 20 :=
      extent_readRest_v4 _ _
    simp only [extent_bind,value_readAddrPair,extent_readAddrPair_v4 h4,reduceCtorEq,if_false]
    omega

/-- The direction sections look at the addresses of an IPv6 packet at most. -/
theorem extent_readDirection_v6_le : extent (readDirection env 6 hwDir) iptr ≤ 40 := by
  have hsrc := bytesCompared_bounds (fun j => iptr (8+j)) env.ifIp6Addr
  have hdst := bytesCompared_bounds (fun j => iptr (24+j)) env.ifIp6Addr
  simp only [readDirection,readUnfiltered,readIpMatch,readIp6Match,extent_bind,extent_ite,
    extent_block,extent_pure,extent_readAddrEqual,value_pure,v6_ne_v4,true_and,false_and,if_true,
    if_false]
  split_ifs <;> omega

/-- The direction of an IPv6 packet is told by the hardware or by the interface's
own address. -/
def Directed6 (env : Env) (iptr : Packet) (hwDir : ℤ) : Prop :=
  hwDir=1 ∨ hwDir=0 ∨ ip6AddrMatch env (ip6Src iptr) ∨ ip6AddrMatch env (ip6Dst iptr)

/-- Without a net filter and a direction, an IPv6 packet is dropped by the choosy
option or stays unassigned. -/
theorem directionUnfiltered_v6 (h6 : ipV iptr=6) (hno : ¬Directed6 env iptr hwDir) :
    directionUnfiltered env iptr hwDir=
      if env.options.promiscuousButChoosy then .drop else .unassigned := by
  simp only [Directed6,not_or,Bool.not_eq_true] at hno
  obtain ⟨h1,h0,hs,hd⟩ := hno
  simp [directionUnfiltered,h6,v6_ne_v4,h1,h0,hs,hd]

/-- With a direction, it is assigned a pair. -/
theorem directionUnfiltered_v6_assign (h6 : ipV iptr=6) (hdir : Directed6 env iptr hwDir) :
    ∃ flip direction,directionUnfiltered env iptr hwDir=.assign flip direction := by
  unfold Directed6 at hdir
  unfold directionUnfiltered
  simp only [h6,v6_ne_v4,true_and,false_and,if_false]
  split_ifs <;> simp_all

/-- Finding no direction takes a look at the destination, after one at the source, if there is
an own address. -/
theorem extent_readUnfiltered_v6 (hno : ¬Directed6 env iptr hwDir) :
    extent (readUnfiltered env 6 hwDir) iptr=
      if env.haveIp6Addr then 24+bytesCompared (ip6Dst iptr) env.ifIp6Addr else 0 := by
  have hsrc : (fun j : Fin 16 => iptr (8+j))=ip6Src iptr := rfl
  have hdst : (fun j : Fin 16 => iptr (24+j))=ip6Dst iptr := rfl
  simp only [Directed6,not_or,Bool.not_eq_true] at hno
  obtain ⟨h1,h0,hs,hd⟩ := hno
  have hle := bytesCompared_bounds (ip6Src iptr) env.ifIp6Addr
  simp only [readUnfiltered,extent_bind,extent_ite,extent_pure,value_readIpMatch,value_readIp6Match,
    hsrc,hdst,hs,hd,h1,h0,v6_ne_v4,decide_true,decide_false,Bool.true_and,Bool.false_and,if_false]
  simp only [readIpMatch,readIp6Match,extent_ite,extent_pure,extent_readAddrEqual,hsrc,hdst,v6_ne_v4,
    true_and,false_and,if_false]
  cases env.haveIp6Addr with
  | false => simp
  | true =>
    simp only [if_true,Bool.false_eq_true,if_false,ite_self]
    omega

/-- The direction of an IPv6 packet, from the reads. -/
theorem value_readDirection_v6 (h6 : ipV iptr=6) :
    value (readDirection env 6 hwDir) iptr=decideDirection env iptr hwDir := by
  rw [←h6,value_readDirection]

/-- A pair of an IPv6 packet is none of IPv4. -/
theorem assignAddrPair_family6 (h6 : ipV iptr=6) (flip : Bool) :
    (assignAddrPair iptr flip).addressFamily≠.inet := by
  unfold assignAddrPair
  cases flip <;> simp [h6,v6_ne_v4]

/-- An assigned pair needs both addresses and the ports, whatever was read before. -/
theorem extent_readIpPacket_v6_assign (h6 : ipV iptr=6) {flip direction : Bool}
    (hd : decideDirection env iptr hwDir=.assign flip direction) :
    extent (readIpPacket env hwDir) iptr=max 40 (portsNeeded (ip6Nxt iptr) 40) := by
  have hle : extent (readDirection env 6 hwDir) iptr ≤ 40 := extent_readDirection_v6_le
  have hrest : ip6RestNeeded env iptr≤40 := ip6RestNeeded_le
  simp only [readIpPacket,extent_bind,extent_readVersion,value_readVersion,h6,
    value_readDirection_v6 h6,hd,value_readAddrPair,extent_readAddrPair_v6 h6,
    extent_readRest_v6 h6 (assignAddrPair_family6 h6 flip)]
  omega

/-- How far an IPv6 packet is read with a net filter. -/
theorem extent_readIpPacket_v6_filtered (h6 : ipV iptr=6) (hf : env.options.netfilter6=true) :
    extent (readIpPacket env hwDir) iptr=
      if inFilterNet6 env.options (ip6Src iptr)=inFilterNet6 env.options (ip6Dst iptr) then 40
      else max 40 (portsNeeded (ip6Nxt iptr) 40) := by
  have hext : extent (readDirection env 6 hwDir) iptr=40 := by
    simp [readDirection,hf,v6_ne_v4]
  have hdec : decideDirection env iptr hwDir=
      directionFiltered (inFilterNet6 env.options (ip6Src iptr))
        (inFilterNet6 env.options (ip6Dst iptr)) := by
    simp [decideDirection,h6,hf,v6_ne_v4]
  by_cases hin : inFilterNet6 env.options (ip6Src iptr)=inFilterNet6 env.options (ip6Dst iptr)
  · have hd := hdec.trans ((directionFiltered_drop _ _).mpr hin)
    simp [readIpPacket,h6,value_readDirection_v6 h6,hd,hext,hin]
  · cases hd : decideDirection env iptr hwDir with
    | drop => exact absurd ((directionFiltered_drop _ _).mp (hdec.symm.trans hd)) hin
    | unassigned => exact absurd (hdec.symm.trans hd) (directionFiltered_ne _ _)
    | assign flip direction => rw [extent_readIpPacket_v6_assign h6 hd,if_neg hin]

/-- How far an IPv6 packet is read without a net filter. -/
theorem extent_readIpPacket_v6_unfiltered (h6 : ipV iptr=6) (hf : env.options.netfilter6=false)
    (hno : ¬Directed6 env iptr hwDir) :
    extent (readIpPacket env hwDir) iptr=
      let looked := if env.haveIp6Addr then 24+bytesCompared (ip6Dst iptr) env.ifIp6Addr else 1
      if env.options.promiscuousButChoosy then looked
      else max looked (ip6RestNeeded env iptr) := by
  have hext : extent (readDirection env 6 hwDir) iptr=
      if env.haveIp6Addr then 24+bytesCompared (ip6Dst iptr) env.ifIp6Addr else 0 := by
    rw [←extent_readUnfiltered_v6 hno]
    simp [readDirection,hf]
  have hdec : decideDirection env iptr hwDir=
      if env.options.promiscuousButChoosy then .drop else .unassigned := by
    rw [←directionUnfiltered_v6 h6 hno]
    simp [decideDirection,h6,hf]
  have hzero : AddrPair.zero.addressFamily≠.inet := by decide
  simp only [readIpPacket,extent_bind,extent_readVersion,value_readVersion,h6,
    value_readDirection_v6 h6,hdec,hext]
  cases env.options.promiscuousButChoosy with
  | true =>
    simp only [if_true,extent_pure]
    split_ifs <;> omega
  | false =>
    simp only [Bool.false_eq_true,if_false,extent_readRest_v6 h6 hzero]
    split_ifs <;> omega

/-- An IPv6 packet is read exactly as far as `ip6Needed` says. -/
theorem extent_readIpPacket_v6 (h6 : ipV iptr=6) :
    extent (readIpPacket env hwDir) iptr=ip6Needed env iptr hwDir := by
  unfold ip6Needed
  dsimp only
  cases hf : env.options.netfilter6 with
  | true =>
    rw [extent_readIpPacket_v6_filtered h6 hf]
    rfl
  | false =>
    by_cases hdir : Directed6 env iptr hwDir
    · obtain ⟨flip,direction,hd⟩ := directionUnfiltered_v6_assign h6 hdir
      have hdec : decideDirection env iptr hwDir=.assign flip direction := by
        rw [←hd]
        simp [decideDirection,h6,hf]
      rw [extent_readIpPacket_v6_assign h6 hdec]
      unfold Directed6 at hdir
      simp [hdir]
    · rw [extent_readIpPacket_v6_unfiltered h6 hf hdir]
      unfold Directed6 at hdir
      simp only [hdir,Bool.false_eq_true,if_false]

/-- An IP packet of any version is read exactly as far as `ipNeeded` says. -/
theorem extent_readIpPacket : extent (readIpPacket env hwDir) iptr=ipNeeded env iptr hwDir := by
  unfold ipNeeded
  by_cases h4 : ipV iptr=4
  · rw [if_pos h4,extent_readIpPacket_v4 h4]
  · by_cases h6 : ipV iptr=6
    · rw [if_neg h4,if_pos h6,extent_readIpPacket_v6 h6]
    · have hread : readDirection env (ipV iptr) hwDir=pure .unassigned := by
        simp [readDirection,h4,h6]
      simp [readIpPacket,hread,extent_readRest_other h4 h6,h4,h6]

/-- The byte with the version is always read, so at least one byte is needed. -/
theorem ipNeeded_pos (env : Env) (iptr : Packet) (hwDir : ℤ) : 0 < ipNeeded env iptr hwDir := by
  rw [←extent_readIpPacket,readIpPacket,extent_bind,extent_readVersion]
  omega

end Extents

/-- A handler together with `handle_ip_packet`, up to the update of the counters. -/
def readFrame (l : LinkEnv) (env : Env) (link : LinkType) (caplen : ℕ) :
    Reads UInt8 (Option Accounted) := do
  match ← handler l caplen link with
  | none => return none
  | some (i,dir) => shift i (readIpPacket env dir)

/-- Bytes needed up to the IP packet at an offset. -/
def ipNeededAt (env : Env) (packet : ℕ→UInt8) (i : ℕ) (dir : ℤ) : ℕ :=
  i+ipNeeded env (fun j => packet (i+j)) dir

/-- Bytes needed of an Ethernet frame. -/
def ethNeeded (l : LinkEnv) (env : Env) (packet : ℕ→UInt8) : ℕ :=
  let payload := if ntohs packet 12=ethertype8021q then 18 else 14
  let etherType := ntohs packet (payload-2)
  if etherType=ethertypeIp ∨ etherType=ethertypeIpv6 then
    ipNeededAt env packet payload
      ((Framing.ethernet (fun j => packet (0+j)) fun j => packet (6+j)).direction l)
  else payload

/-- Bytes needed of a PPP frame. -/
def pppNeeded (env : Env) (caplen : ℕ) (packet : ℕ→UInt8) : ℕ :=
  if caplen<2 then 0
  else if packet 0≠pppAddress ∨ caplen<4 then 1
  else if ntohs packet 2=pppIp ∨ ntohs packet 2=ethertypeIp ∨ ntohs packet 2=ethertypeIpv6 then
    ipNeededAt env packet 4 (-1)
  else 4

/-- The organisation code of an LLC header. -/
def orgcode (packet : ℕ→UInt8) (llc : ℕ) : UInt32 :=
  ((packet (llc+3)).toUInt32 <<< 16) ||| ((packet (llc+3+1)).toUInt32 <<< 8) |||
    (packet (llc+3+2)).toUInt32

/-- Bytes needed of an LLC header and the packet behind it. -/
def llcNeeded (env : Env) (packet : ℕ→UInt8) (llc : ℕ) (dir : ℤ) : ℕ :=
  if packet (llc+1)≠llcsapSnap ∨ packet llc≠llcsapSnap then llc+2
  else if packet (llc+2)≠llcUi then llc+3
  else if (orgcode packet llc=ouiEncapEther ∨ orgcode packet llc=ouiCisco90) ∨
      (orgcode packet llc=ouiAppletalk ∧ ntohs packet (llc+6)=ethertypeAtalk) then
    ipNeededAt env packet (llc+8) dir
  else llc+8

/-- Bytes needed of a token ring frame. -/
def tokenNeeded (l : LinkEnv) (env : Env) (packet : ℕ→UInt8) : ℕ :=
  let routed := packet 8 &&& 0x80≠0
  let rif := if routed then ((ntohs packet 14 &&& 0x1f00) >>> 8).toNat else 0
  if (packet 1 &&& 0xc0) >>> 6=1 then
    llcNeeded env packet (rif+tokenHdrlen)
      ((Framing.ethernet (fun j => packet (2+j)) fun j => packet (8+j)).direction ⟨true,l.ifHwAddr⟩)
  else if routed then 16 else 14

/-- Bytes needed of a frame. -/
def frameNeeded (l : LinkEnv) (env : Env) (caplen : ℕ) (packet : ℕ→UInt8) : LinkType→ℕ
  | .raw => ipNeededAt env packet 0 (-1)
  | .null => ipNeededAt env packet 4 (-1)
  | .tokenring => tokenNeeded l env packet
  | .ppp => pppNeeded env caplen packet
  | .cooked => ipNeededAt env packet 16
    (if ntohs packet 0=0 then 0 else if ntohs packet 0=4 then 1 else -1)
  | .eth => ethNeeded l env packet
  | .radiotap => ipNeededAt env packet ((packet 3).toNat*256+(packet 2).toNat+34) (-1)

section Frames

variable {l : LinkEnv} {env : Env} {packet : ℕ→UInt8}

/-- A frame is read as far as the IP packet in it, or as the handler reads it. -/
theorem extent_readFrame (link : LinkType) (caplen : ℕ) :
    extent (readFrame l env link caplen) packet=max (extent (handler l caplen link) packet)
      (match value (handler l caplen link) packet with
        | none => 0
        | some (i,dir) => ipNeededAt env packet i dir) := by
  rw [readFrame,extent_bind]
  congr 1
  cases value (handler l caplen link) packet with
  | none => rfl
  | some call =>
    dsimp only
    rw [extent_shift (by rw [extent_readIpPacket]; exact ipNeeded_pos _ _ _),extent_readIpPacket,ipNeededAt]

/-- More is needed than the offset of the IP packet. -/
theorem lt_ipNeededAt (env : Env) (packet : ℕ→UInt8) (i : ℕ) (dir : ℤ) : i < ipNeededAt env packet i dir := by
  have := ipNeeded_pos env (fun j => packet (i+j)) dir
  rw [ipNeededAt]
  omega

/-- An Ethernet frame is read exactly as far as `ethNeeded` says. -/
theorem extent_readFrame_eth (caplen : ℕ) :
    extent (readFrame l env .eth caplen) packet=ethNeeded l env packet := by
  have hdir := value_ethDirection l packet rfl rfl
  have hreach : extent (ethDirection l) packet ≤ 12 := by
    simp only [ethDirection,extent_bind,extent_ite,extent_macIs,extent_pure,value_ite]
    split_ifs <;> omega
  obtain ⟨payload,hp,hv,hx⟩ : ∃ payload,(if ntohs packet 12=ethertype8021q then 18 else 14)=payload ∧
      value etherPayload packet=(ntohs packet (payload-2),payload) ∧
      extent etherPayload packet=payload := by
    refine ⟨_,rfl,?_,?_⟩ <;> simp only [etherPayload,value_bind,value_half,value_ite,value_pure,
      extent_bind,extent_half,extent_ite,extent_pure] <;> split_ifs <;> simp
  have h14 : 14 ≤ payload := by
    rw [←hp]
    split <;> omega
  unfold ethNeeded
  rw [extent_readFrame,hp]
  simp only [handler,handleEthPacket,value_bind,value_ite,value_pure,extent_bind,extent_ite,
    extent_pure,hv,hx,hdir]
  split
  · have := lt_ipNeededAt env packet payload
      ((Framing.ethernet (fun j => packet (0+j)) fun j => packet (6+j)).direction l)
    dsimp only
    omega
  · simp

/-- A PPP frame is read exactly as far as `pppNeeded` says. -/
theorem extent_readFrame_ppp (caplen : ℕ) :
    extent (readFrame l env .ppp caplen) packet=pppNeeded env caplen packet := by
  have hip := lt_ipNeededAt env packet 4 (-1)
  rw [extent_readFrame]
  simp only [handler,handlePppPacket,value_bind,value_ite,value_pure,value_cell,value_half,extent_bind,
    extent_ite,extent_pure,extent_cell,extent_half,pppNeeded]
  by_cases h2 : caplen<2
  · simp [h2]
  · by_cases h0 : packet 0=pppAddress
    · by_cases h4 : caplen<4
      · simp [h2,h0,h4]
      · simp only [h2,h0,h4,ne_eq,not_true,or_false,if_false]
        split
        · dsimp only
          omega
        · rfl
    · simp [h2,h0]

/-- The LLC header and what it encapsulates, with the header behind at least
`TOKEN_HDRLEN` bytes. -/
theorem extent_handleLlcPacket (llc : ℕ) (dir : ℤ) :
    max (extent (handleLlcPacket llc dir) packet)
      (match value (handleLlcPacket llc dir) packet with
        | none => 0
        | some (i,dir) => ipNeededAt env packet i dir)=llcNeeded env packet llc dir := by
  have hip := lt_ipNeededAt env packet (llc+8) dir
  have horg : value (extract24Bits (llc+3)) packet=orgcode packet llc := by
    simp only [extract24Bits,value_bind,value_cell,value_pure,orgcode]
  have hext : extent (extract24Bits (llc+3)) packet=llc+6 := by
    simp only [extract24Bits,extent_bind,extent_cell,extent_pure]
    omega
  simp only [handleLlcPacket,value_bind,value_ite,value_pure,value_cell,value_half,extent_bind,
    extent_ite,extent_pure,extent_cell,extent_half,horg,hext,llcNeeded]
  by_cases hs : packet (llc+1)=llcsapSnap
  · by_cases hd : packet llc=llcsapSnap
    · by_cases hu : packet (llc+2)=llcUi
      · simp only [hs,hd,hu,ne_eq,not_true,or_self,if_false]
        by_cases h1 : orgcode packet llc=ouiEncapEther ∨ orgcode packet llc=ouiCisco90
        · simp only [h1,true_or,if_true]
          omega
        · by_cases h2 : orgcode packet llc=ouiAppletalk ∧ ntohs packet (llc+6)=ethertypeAtalk
          · simp only [if_neg h1,if_pos h2,if_pos (Or.inr h2 : _∨_)]
            omega
          · simp only [h1,h2,or_self,if_false]
            omega
      · simp [hs,hd,hu]
    · simp [hs,hd]
  · simp [hs]

/-- The first two bytes of an LLC header are always needed. -/
theorem le_llcNeeded (env : Env) (packet : ℕ→UInt8) (llc : ℕ) (dir : ℤ) : llc+2 ≤ llcNeeded env packet llc dir := by
  have hip := lt_ipNeededAt env packet (llc+8) dir
  unfold llcNeeded
  split_ifs <;> omega

/-- A token ring frame is read exactly as far as `tokenNeeded` says. -/
theorem extent_readFrame_tokenring (caplen : ℕ) :
    extent (readFrame l env .tokenring caplen) packet=tokenNeeded l env packet := by
  have hreach : extent (tokenDirection l) packet=14 := by
    simp only [tokenDirection,extent_bind,extent_ite,extent_macIs,extent_pure,value_macIs]
    split_ifs <;> omega
  have hdir : value (tokenDirection l) packet=
      (Framing.ethernet (fun j => packet (2+j)) fun j => packet (8+j)).direction
        ⟨true,l.ifHwAddr⟩ := by
    simp only [tokenDirection,value_bind,value_ite,value_macIs,value_pure,Framing.direction]
    grind
  have hrif : value rifLength packet=
      if packet 8 &&& 0x80≠0 then ((ntohs packet 14 &&& 0x1f00) >>> 8).toNat else 0 := by
    simp only [rifLength,value_bind,value_ite,value_cell,value_half,value_pure]
    by_cases h : packet 8 &&& 0x80=0 <;> simp [h]
  have hrifx : extent rifLength packet=if packet 8 &&& 0x80≠0 then 16 else 9 := by
    simp only [rifLength,extent_bind,extent_ite,extent_cell,extent_half,extent_pure,value_cell]
    by_cases h : packet 8 &&& 0x80=0 <;> simp [h]
  unfold tokenNeeded
  rw [extent_readFrame]
  simp only [handler,handleTokenringPacket,value_bind,value_ite,value_cell,value_pure,extent_bind,
    extent_ite,extent_cell,extent_pure,hreach,hdir,hrif,hrifx]
  obtain ⟨llc,hllc,h14⟩ : ∃ llc,
      (if packet 8 &&& 0x80≠0 then ((ntohs packet 14 &&& 0x1f00) >>> 8).toNat else 0)+tokenHdrlen=
        llc ∧ 14 ≤ llc := ⟨_,rfl,Nat.le_add_left _ _⟩
  rw [hllc]
  by_cases hfc : (packet 1 &&& 0xc0) >>> 6=1
  · have hge := le_llcNeeded env packet llc
      ((Framing.ethernet (fun j => packet (2+j)) fun j => packet (8+j)).direction ⟨true,l.ifHwAddr⟩)
    simp only [hfc,if_true]
    rw [←extent_handleLlcPacket] at hge ⊢
    split_ifs <;> omega
  · simp only [hfc,if_false]
    split_ifs <;> simp

/-- A frame of any link type is read exactly as far as `frameNeeded` says. -/
theorem extent_readFrame_eq (link : LinkType) (caplen : ℕ) :
    extent (readFrame l env link caplen) packet=frameNeeded l env caplen packet link := by
  cases link with
  | raw => rw [extent_readFrame]; exact Nat.zero_max _
  | null => rw [extent_readFrame]; exact Nat.zero_max _
  | tokenring => exact extent_readFrame_tokenring caplen
  | ppp => exact extent_readFrame_ppp caplen
  | cooked =>
    rw [extent_readFrame]
    simp only [handler,handleCookedPacket,value_bind,value_half,value_pure,extent_bind,extent_half,
      extent_pure,frameNeeded]
    have := lt_ipNeededAt env packet 16
      (if ntohs packet 0=0 then 0 else if ntohs packet 0=4 then 1 else -1)
    omega
  | eth => exact extent_readFrame_eth caplen
  | radiotap =>
    rw [extent_readFrame]
    simp only [handler,handleRadiotapPacket,value_bind,value_cell,value_pure,extent_bind,extent_cell,
      extent_pure,frameNeeded]
    have := lt_ipNeededAt env packet
      ((packet 3).toNat*256+(packet 2).toNat+34) (-1)
    omega

end Frames

/-- The logged computation decides what the handler does to the history. -/
theorem handlePacket_readFrame (tick : Capture→Capture) (l : LinkEnv) (env : Env) (link : LinkType)
    (caplen : ℕ) (packet : ℕ→UInt8) (s : Capture) :
    handlePacket tick l env link caplen packet s=
      match value (readFrame l env link caplen) packet with
      | none => link.tick tick s
      | some a => recordPacket env a (link.tick tick s) := by
  unfold handlePacket
  rw [readFrame,value_bind]
  cases value (handler l caplen link) packet with
  | none => rfl
  | some call =>
    dsimp only
    rw [value_shift,value_readIpPacket]
    rfl

/-- All reads of a frame are inside its captured bytes exactly if these are as
many as the path through the handlers needs. -/
theorem inside_capture_iff (l : LinkEnv) (env : Env) (link : LinkType) (caplen : ℕ)
    (packet : ℕ→UInt8) :
    (∀ i∈offsets (readFrame l env link caplen) packet,i < caplen) ↔
      frameNeeded l env caplen packet link ≤ caplen := by
  rw [←extent_le_iff,extent_readFrame_eq]

/-- Of an IPv4 TCP packet captured without its transport header, the ports are
read beyond the capture. -/
theorem raw_tcp_outside_capture :
    ¬∀ i∈offsets (readFrame ⟨false,fun _ => 0⟩ bareEnv .raw 20)
      (ip4Packet ipprotoTcp ![10,0,0,1] ![10,0,0,9]),i<20 := by
  decide

end IftopColor.CaptureBounds
