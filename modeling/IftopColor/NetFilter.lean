import IftopColor.History

/-!
# Net filters, from the option text to the counters

`options_config_get_net_filter` and its IPv6 sibling split the option text at
the slash, parse the network and the mask, and store the masked network. The
results follow a filter from the text to the packets: which packets are
accounted, which endpoint comes first in the key, and which sides the bytes go
to. The address parsers of the C library are parameters.
-/

namespace IftopColor.NetFilter

open NetBytes RecordStore AddrHash Options PacketDirection History

/-- Bytes of a C string before its terminator. -/
abbrev CString := List Char

/-- `strchr` at a slash, with the terminator written over the slash: the text
before it and the text after it. -/
def splitSlash : CString→Option (CString×CString)
  | [] => none
  | c::cs =>
    if c= '/' then some ([],cs)
    else (splitSlash cs).map fun (before,after) => (c::before,after)

/-- `mask[strspn(mask, "0123456789")] == '\\0'`; true of the empty text. -/
def isNumeric (mask : CString) : Bool := mask.all Char.isDigit

/-- Value of a run of decimal digits. -/
def digitsValue (s : CString) : ℕ := s.foldl (fun n c => 10*n+(c.toNat-48)) 0

/-- `atoi` on a run of digits: `strtol` stops at `LONG_MAX`, and the result is
cut down to an `int`. -/
def atoi (s : CString) : ℤ := Int.bmod (min (digitsValue s) (2^63-1) : ℕ) (2^32)

/-- `htonl` stored to `s_addr`: the most significant byte first. -/
def htonl (x : UInt32) : InAddr :=
  ![(x >>> 24).toUInt8,(x >>> 16).toUInt8,(x >>> 8).toUInt8,x.toUInt8]

/-- The mask of a prefix length; `none` when it is rejected. The shift count
of the hardware is taken modulo the word size. -/
def prefixToMask (prefixLen : ℤ) : Option InAddr :=
  if prefixLen>32 then none
  else if prefixLen=32 then some (htonl 0xffffffff)
  else some (htonl (~~~((0xffffffff : UInt32) >>> UInt32.ofInt prefixLen)))

/-- `options_config_get_net_filter` for the stored text: its result, the text
that stays in the configuration and the options. -/
def optionsConfigGetNetFilter (inetAton : CString→Option InAddr) (str : Option CString)
    (o : OptionsT) : Bool×Option CString×OptionsT :=
  match str with
  | none => (false,none,o)
  | some str =>
    let o := {o with netfilter := false}
    match splitSlash str with
    | none => (false,some str,o)
    | some (net,mask) =>
      match inetAton net with
      | none => (false,some net,o)
      | some addr =>
        let o := {o with netfilternet := addr}
        if isNumeric mask then
          let o := {o with
            netfiltermask := (prefixToMask (atoi mask)).getD o.netfiltermask
            netfilter := true}
          (true,some net,{o with netfilternet := maskBytes o.netfilternet o.netfiltermask})
        else
          match inetAton mask with
          | some m =>
            let o := {o with netfiltermask := m,netfilter := true}
            (true,some net,{o with netfilternet := maskBytes o.netfilternet o.netfiltermask})
          | none => (false,some net,o)

/-- The bytes of `netfilter6mask` that a prefix length writes: full bytes, and
a partial byte when the length is not a multiple of eight. -/
def writePrefix6 (prefixLen : ℕ) (m : In6Addr) : In6Addr :=
  let fullBytes := prefixLen/8
  let remainder := prefixLen%8
  let part : UInt8 := 0xff <<< (8-UInt8.ofNat remainder)
  fun j =>
    if j.val<fullBytes then 0xff
    else if remainder>0 ∧ j.val=fullBytes then part
    else m j

/-- `options_config_get_net_filter6` for the stored text. A prefix length out
of range leaves the filter off and the mask alone. -/
def optionsConfigGetNetFilter6 (inetPton : CString→Option In6Addr) (str : Option CString)
    (o : OptionsT) : Bool×Option CString×OptionsT :=
  match str with
  | none => (false,none,o)
  | some str =>
    let o := {o with netfilter6 := false}
    match splitSlash str with
    | none => (false,some str,o)
    | some (net,mask) =>
      match inetPton net with
      | none => (false,some net,o)
      | some addr =>
        let o := {o with netfilter6net := addr}
        if isNumeric mask then
          let prefixLen := (atoi mask%2^32).toNat
          let o :=
            if prefixLen>128 ∨ prefixLen<1 then o
            else {o with
              netfilter6mask := writePrefix6 prefixLen o.netfilter6mask
              netfilter6 := true}
          (true,some net,{o with netfilter6net := maskBytes o.netfilter6net o.netfilter6mask})
        else
          match inetPton mask with
          | some m =>
            let o := {o with netfilter6mask := m,netfilter6 := true}
            (true,some net,{o with netfilter6net := maskBytes o.netfilter6net o.netfilter6mask})
          | none => (false,some net,o)

/-- The text splits at its first slash. -/
theorem splitSlash_append {addr : CString} (h : '/'∉addr) (mask : CString) :
    splitSlash (addr++ '/'::mask)=some (addr,mask) := by
  induction addr with
  | nil => simp [splitSlash]
  | cons c cs ih =>
    simp only [List.mem_cons,not_or] at h
    simp [splitSlash,Ne.symm h.1,ih h.2]

/-- Small numbers are read as they are. -/
theorem atoi_eq {s : CString} (h : digitsValue s≤128) : atoi s=digitsValue s := by
  unfold atoi
  rw [Nat.min_eq_left (by omega)]
  exact Int.bmod_eq_of_le (by omega) (by omega)

/-- A prefix length up to 32 gives the mask with that many leading ones. -/
theorem prefixToMask_spec {p : ℕ} (h : p≤32) : ∃ m,prefixToMask p=some m ∧ IsPrefixMask p m := by
  have hall : ∀ p : Fin 33,∃ m∈prefixToMask (p : ℕ),IsPrefixMask p m := by decide
  exact hall ⟨p,by omega⟩

/-- The text is the decimal numeral of a number, leading zeros allowed. -/
structure Decimal (p : ℕ) (s : CString) : Prop where
  /-- There is a digit. -/
  nonempty : s≠[]
  /-- There is nothing else. -/
  digits : isNumeric s=true
  /-- The digits give the number. -/
  value : digitsValue s=p

/-- The text after the slash stands for the mask `m`: as the length of its
prefix, or as a dotted quad. -/
def MaskText (inetAton : CString→Option InAddr) (mask : CString) (m : InAddr) : Prop :=
  (∃ p≤32,Decimal p mask ∧ IsPrefixMask p m) ∨ ('.'∈mask ∧ inetAton mask=some m)

/-- Reading `A/p` or `A/M` turns the filter on with the masked network. -/
theorem getNetFilter_eq {inetAton : CString→Option InAddr} {addr mask : CString}
    {net m : InAddr} (haddr : '/'∉addr) (hnet : inetAton addr=some net)
    (hmask : MaskText inetAton mask m) (o : OptionsT) :
    optionsConfigGetNetFilter inetAton (some (addr++ '/'::mask)) o=
      (true,some addr,{o with
        netfilter := true,netfilternet := maskBytes net m,netfiltermask := m}) := by
  rcases hmask with ⟨p,hp,hd,hm⟩|⟨hdot,hm⟩
  · obtain ⟨m',hm',hi⟩ := prefixToMask_spec hp
    have ha : atoi mask=p := by rw [atoi_eq (by have := hd.value; omega),hd.value]
    rw [isPrefixMask_unique hm hi]
    simp [optionsConfigGetNetFilter,splitSlash_append haddr,hnet,hd.digits,ha,hm']
  · have hd : isNumeric mask=false := by
      rw [isNumeric,List.all_eq_false]
      exact ⟨'.',hdot,by decide⟩
    simp [optionsConfigGetNetFilter,splitSlash_append haddr,hnet,hd,hm]

/-- The packet is counted under a key, its bytes on the same side of the
record and of the totals: the record of the key is updated, or created and
then updated, and nothing else in the history changes. -/
structure CountedAs (env : Env) (iptr : Packet) (hwDir : ℤ) (key : AddrPair) (sent : Bool) :
    Prop where
  /-- The packet is not dropped. -/
  accounted : account env iptr hwDir=some ⟨key,sent,sent,packetLen iptr⟩
  /-- What happens to the flow records. -/
  records : ∀ {frame s},Wf frame s→(flows (handleIpPacket env iptr hwDir s)).Perm
    (upsert key (newRecord env key)
      (HistoryType.credit s.historyPos ⟨key,sent,sent,packetLen iptr⟩) (flows s))
  /-- What happens to the totals. -/
  totals : ∀ s,(handleIpPacket env iptr hwDir s).historyTotals=
    s.historyTotals.creditTotals s.historyPos ⟨key,sent,sent,packetLen iptr⟩

/-- The packet leaves the capture state as it is. -/
structure Dropped (env : Env) (iptr : Packet) (hwDir : ℤ) : Prop where
  /-- The packet is dropped. -/
  unaccounted : account env iptr hwDir=none
  /-- Nothing is counted. -/
  unchanged : ∀ s,handleIpPacket env iptr hwDir s=s

/-- A packet is counted exactly when one of its endpoints is inside, with that
endpoint first in the key, as sent from inside and as received otherwise. -/
structure FilteredBy (env : Env) (iptr : Packet) (hwDir : ℤ) (srcIn dstIn : Prop) : Prop where
  /-- Accounted means that exactly one endpoint is inside. -/
  accounted_iff : account env iptr hwDir≠none ↔ Xor srcIn dstIn
  /-- Packets within and outside the network. -/
  dropped : (srcIn ↔ dstIn)→Dropped env iptr hwDir
  /-- Packets that leave the network. -/
  outgoing : srcIn→¬dstIn→
    CountedAs env iptr hwDir (pairOf iptr (srcEnd iptr) (dstEnd iptr)) true
  /-- Packets that enter the network. -/
  incoming : dstIn→¬srcIn→
    CountedAs env iptr hwDir (pairOf iptr (dstEnd iptr) (srcEnd iptr)) false

variable {env : Env} {iptr : Packet} {hwDir : ℤ}

/-- What the history does with an accounted packet. -/
theorem countedAs_of_account {key : AddrPair} {sent : Bool}
    (h : account env iptr hwDir=some ⟨key,sent,sent,packetLen iptr⟩) :
    CountedAs env iptr hwDir key sent := by
  refine ⟨h,?_,?_⟩
  · intro frame s hw
    simp only [handleIpPacket,h]
    exact (recordPacket_spec env _ hw).2
  · intro s
    simp only [handleIpPacket,h]
    exact (recordPacket_ring env _ s).2.2

/-- The branches of a net filter classify the packet by its endpoints. -/
theorem filteredBy_of_direction {srcIn dstIn : Prop} [Decidable srcIn] [Decidable dstIn]
    (hi : IsIp iptr) (hl : dropLinkLocal env iptr=false)
    (hne : dstIn→¬srcIn→(srcEnd iptr).1≠(dstEnd iptr).1)
    (hd : decideDirection env iptr hwDir=directionFiltered (decide srcIn) (decide dstIn)) :
    FilteredBy env iptr hwDir srcIn dstIn := by
  have hnone (h : srcIn ↔ dstIn) : account env iptr hwDir=none := by
    by_cases hs : srcIn
    · simp [account,hd,directionFiltered,hs,h.mp hs]
    · simp [account,hd,directionFiltered,hs,mt h.mpr hs]
  have hout (hs : srcIn) (ht : ¬dstIn) : account env iptr hwDir=
      some ⟨pairOf iptr (srcEnd iptr) (dstEnd iptr),true,true,packetLen iptr⟩ := by
    simp [account,hd,directionFiltered,hs,ht,hl,accountAs_assign hi,flowKey]
  have hin (ht : dstIn) (hs : ¬srcIn) : account env iptr hwDir=
      some ⟨pairOf iptr (dstEnd iptr) (srcEnd iptr),false,false,packetLen iptr⟩ := by
    simp [account,hd,directionFiltered,hs,ht,hl,accountAs_assign hi,flowKey,hne ht hs]
  refine ⟨?_,?_,fun hs ht => countedAs_of_account (hout hs ht),
    fun ht hs => countedAs_of_account (hin ht hs)⟩
  · by_cases hs : srcIn <;> by_cases ht : dstIn
    · simp [hnone (iff_of_true hs ht),hs,ht,Xor]
    · simp [hout hs ht,hs,ht,Xor]
    · simp [hin ht hs,hs,ht,Xor]
    · simp [hnone (iff_of_false hs ht),hs,ht,Xor]
  · intro h
    exact ⟨hnone h,fun s => by simp only [handleIpPacket,hnone h]⟩

/-- The IPv4 filter from its text to the counters: with any earlier options,
the packets counted are those with exactly one endpoint in the network. -/
theorem net_filter_end_to_end (inetAton : CString→Option InAddr) {addr mask : CString}
    {net m : InAddr} (haddr : '/'∉addr) (hnet : inetAton addr=some net)
    (hmask : MaskText inetAton mask m) (env : Env) (iptr : Packet) (hwDir : ℤ)
    (hv : ipV iptr=4) :
    let o := (optionsConfigGetNetFilter inetAton (some (addr++ '/'::mask)) env.options).2.2
    FilteredBy {env with options := o} iptr hwDir
      (maskBytes (ipSrc iptr) m=maskBytes net m) (maskBytes (ipDst iptr) m=maskBytes net m) := by
  intro o
  have ho : o={env.options with
      netfilter := true,netfilternet := maskBytes net m,netfiltermask := m} := by
    simp only [o,getNetFilter_eq haddr hnet hmask]
  refine filteredBy_of_direction (.inl hv) ?_ ?_ ?_
  · simp [dropLinkLocal,hv]
  · intro hd hs he
    simp only [srcEnd,dstEnd,hv,if_true,in6OfIn_injective.eq_iff] at he
    exact hs (he ▸ hd)
  · simp [decideDirection,hv,ho,inFilterNet]

/-- `inet_aton` on four decimal numbers. -/
def parseQuad (s : CString) : Option InAddr :=
  match s.splitOn '.' with
  | [a,b,c,d] =>
    if [a,b,c,d].all fun part => !part.isEmpty && isNumeric part && decide (digitsValue part<256)
    then some ![.ofNat (digitsValue a),.ofNat (digitsValue b),.ofNat (digitsValue c),
      .ofNat (digitsValue d)]
    else none
  | _ => none

/-- The filter `10.0.1.7/24`, with host bits set, and a packet into the network. -/
theorem net_filter_end_to_end_slash24 :
    let p := ip4Packet ipprotoUdp ![192,0,2,1] ![10,0,1,200]
    let o := (optionsConfigGetNetFilter parseQuad (some "10.0.1.7/24".toList)
      bareEnv.options).2.2
    FilteredBy {bareEnv with options := o} p (-1)
      (maskBytes (ipSrc p) ![255,255,255,0]=maskBytes ![10,0,1,7] ![255,255,255,0])
      (maskBytes (ipDst p) ![255,255,255,0]=maskBytes ![10,0,1,7] ![255,255,255,0]) :=
  have haddr : '/'∉"10.0.1.7".toList := by decide
  have hmask : MaskText parseQuad "24".toList ![255,255,255,0] :=
    .inl ⟨24,by decide,⟨by decide,by decide,by decide⟩,by decide⟩
  net_filter_end_to_end parseQuad haddr (by decide) hmask bareEnv _ _ (by decide)

/-- A shifted byte has the bits of the prefix, or the prefix ends with a whole byte. -/
theorem partial_testBit {r k : ℕ} (hr : r<8) (hk : k<8) :
    ((0xff : UInt8) <<< (8-UInt8.ofNat r)).toNat.testBit (7-k)=decide (0 < r ∧ k < r) ∨ r=0 := by
  have hall : ∀ r k : Fin 8,((0xff : UInt8) <<< (8-UInt8.ofNat r)).toNat.testBit (7-k)=
      decide (0 < r.val ∧ k < r) ∨ r.val=0 := by decide
  exact hall ⟨r,hr⟩ ⟨k,hk⟩

/-- Over the default mask, a prefix length from 9 on gives a prefix mask. -/
theorem writePrefix6_isPrefixMask {p : ℕ} (h : 9≤p) :
    IsPrefixMask p (writePrefix6 p defaultMask6) := by
  intro i hi
  have hi8 : i/8<16 := by omega
  have hfull : ∀ k<8,(0xff : UInt8).toNat.testBit (7-k)=true := by decide
  unfold netBit
  rw [dif_pos hi8]
  simp only [writePrefix6]
  by_cases h1 : i/8<p/8
  · rw [if_pos h1,hfull _ (by omega)]
    exact (decide_eq_true (by omega)).symm
  by_cases h2 : p%8>0 ∧ i/8=p/8
  · rw [if_neg h1,if_pos h2]
    have hp := (partial_testBit (r:=p%8) (k:=i%8) (by omega) (by omega)).resolve_right (by omega)
    rw [hp,decide_eq_decide]
    omega
  · rw [if_neg h1,if_neg h2]
    have hz : ¬i/8<2 := by omega
    simp only [defaultMask6,hz,if_false]
    simp only [UInt8.toNat_zero,Nat.zero_testBit]
    exact (decide_eq_false (by omega)).symm

/-- Over the default mask, a prefix length up to 8 leaves the second byte full. -/
theorem writePrefix6_second {p : ℕ} (h : p≤8) : writePrefix6 p defaultMask6 1=0xff := by
  have hall : ∀ p : Fin 9,writePrefix6 p defaultMask6 1=0xff := by decide
  exact hall ⟨p,by omega⟩

/-- The first bit of the mask is always set. -/
theorem writePrefix6_first {p : ℕ} (h1 : 1≤p) (h8 : p≤8) :
    netBit (writePrefix6 p defaultMask6) 0=true := by
  have hall : ∀ p : Fin 9,1≤p.val→netBit (writePrefix6 p defaultMask6) 0=true := by decide
  exact hall ⟨p,by omega⟩ h1

/-- Reading `A/p` turns the IPv6 filter on with the masked network. -/
theorem getNetFilter6_eq {inetPton : CString→Option In6Addr} {addr mask : CString}
    {net : In6Addr} {p : ℕ} (haddr : '/'∉addr) (hnet : inetPton addr=some net)
    (hmask : Decimal p mask) (h1 : 1≤p) (h128 : p≤128) (o : OptionsT) :
    optionsConfigGetNetFilter6 inetPton (some (addr++ '/'::mask)) o=
      (true,some addr,{o with
        netfilter6 := true
        netfilter6net := maskBytes net (writePrefix6 p o.netfilter6mask)
        netfilter6mask := writePrefix6 p o.netfilter6mask}) := by
  have ha : (atoi mask%2^32).toNat=p := by
    rw [atoi_eq (by have := hmask.value; omega),hmask.value]
    omega
  have hr : ¬(p>128 ∨ p<1) := by omega
  simp only [optionsConfigGetNetFilter6,splitSlash_append haddr,hnet,hmask.digits,ha,hr,if_true,
    if_false]

/-- The packet is not one that the link-local test drops: link-local traffic is
accounted for, or neither address is link-local. -/
def PassesLinkLocal (o : OptionsT) (iptr : Packet) : Prop :=
  o.linkLocal=true ∨
    (in6IsAddrLinklocal (ip6Src iptr)=false ∧ in6IsAddrLinklocal (ip6Dst iptr)=false)

/-- The IPv6 filter is on with a mask and the network masked by it. -/
structure Filter6On (o : OptionsT) (net m : In6Addr) : Prop where
  /-- The filter is on. -/
  active : o.netfilter6=true
  /-- The stored mask. -/
  mask : o.netfilter6mask=m
  /-- The stored network. -/
  masked : o.netfilter6net=maskBytes net m

/-- Packets that the link-local test lets pass are classified by the masked
network. -/
theorem Filter6On.filteredBy {o : OptionsT} {net m : In6Addr} (h : Filter6On o net m) (env : Env)
    (hv : ipV iptr=6) (hpass : PassesLinkLocal o iptr) (hwDir : ℤ) :
    FilteredBy {env with options := o} iptr hwDir
      (maskBytes (ip6Src iptr) m=maskBytes net m) (maskBytes (ip6Dst iptr) m=maskBytes net m) := by
  refine filteredBy_of_direction (.inr hv) ?_ ?_ ?_
  · rcases hpass with hl|⟨hs,hd⟩
    · simp [dropLinkLocal,hl]
    · simp [dropLinkLocal,hs,hd]
  · intro hd hs he
    simp only [srcEnd,dstEnd,not_v4_of_v6 hv,if_false] at he
    exact hs (he ▸ hd)
  · simp [decideDirection,hv,h.active,inFilterNet6,h.mask,h.masked]

/-- After the text was read over the options of the environment, every IPv6
packet is classified by agreement with the network on the first `p` bits. -/
def Filters6 (inetPton : CString→Option In6Addr) (str : CString) (env : Env) (net : In6Addr)
    (p : ℕ) : Prop :=
  let o := (optionsConfigGetNetFilter6 inetPton (some str) env.options).2.2
  ∀ (iptr : Packet) (hwDir : ℤ),ipV iptr=6→PassesLinkLocal o iptr→
    FilteredBy {env with options := o} iptr hwDir
      (AgreeOn p (ip6Src iptr) net) (AgreeOn p (ip6Dst iptr) net)

/-- An address that differs from the network only in the second byte; never
link-local. -/
def nearMiss (net : In6Addr) : In6Addr := fun j =>
  if j.val=1 then if net j=0 then 1 else 0 else net j

/-- An address that differs from the network in the first bit; never link-local. -/
def farMiss (net : In6Addr) : In6Addr := fun j =>
  if j.val=0 then net j ^^^ 0x80 else if j.val=1 then 0 else net j

/-- The two addresses are not link-local. -/
theorem miss_not_linklocal (net : In6Addr) :
    in6IsAddrLinklocal (nearMiss net)=false ∧ in6IsAddrLinklocal (farMiss net)=false := by
  constructor
  · by_cases h : net 1=0
    · have h1 : ¬(1 : UInt8) &&& 0xc0=0x80 := by decide
      simp [in6IsAddrLinklocal,in6HasPrefix,nearMiss,h,h1]
    · simp [in6IsAddrLinklocal,in6HasPrefix,nearMiss,h]
  · simp [in6IsAddrLinklocal,in6HasPrefix,farMiss]

/-- The first bit of the far address is not the network's. -/
theorem farMiss_first (net : In6Addr) : netBit (farMiss net) 0≠netBit net 0 := by
  have h7 : Nat.testBit 128 7=true := by decide
  simp [netBit,farMiss,h7]

/-- The near address is in the network for a prefix within the first byte. -/
theorem nearMiss_agrees (net : In6Addr) {p : ℕ} (h : p≤8) : AgreeOn p (nearMiss net) net := by
  intro i hi
  have hd : i/8=0 := by omega
  simp [netBit,nearMiss,hd]

/-- The mask of a short prefix over the default one tells the near address from
the network. -/
theorem nearMiss_masked (net : In6Addr) {p : ℕ} (h : p≤8) :
    maskBytes (nearMiss net) (writePrefix6 p defaultMask6)≠
      maskBytes net (writePrefix6 p defaultMask6) := by
  intro he
  have h1 := congrFun he 1
  have hf : ∀ x : UInt8,x &&& 0xff=x := by
    intro x
    exact UInt8.and_neg_one
  simp only [maskBytes,writePrefix6_second h,hf,nearMiss,Fin.val_one,if_true] at h1
  by_cases h0 : net 1=0
  · simp [h0] at h1
  · exact h0 (by simpa [h0] using h1.symm)

/-- The far address is outside by any mask that has its first bit set. -/
theorem farMiss_masked (net : In6Addr) {m : In6Addr} (h : netBit m 0=true) :
    maskBytes (farMiss net) m≠maskBytes net m :=
  fun he => farMiss_first net (mask_eq_iff.mp he 0 (by omega) h)

section Read6

variable {inetPton : CString→Option In6Addr} {addr mask : CString} {net : In6Addr} {p : ℕ}

/-- Reading `A/p` writes the prefix of the mask over the default one. -/
theorem filter6On_read (haddr : '/'∉addr) (hnet : inetPton addr=some net)
    (hmask : Decimal p mask) (h1 : 1≤p) (h128 : p≤128) {o : OptionsT}
    (ho : o.netfilter6mask=defaultMask6) :
    Filter6On (optionsConfigGetNetFilter6 inetPton (some (addr++ '/'::mask)) o).2.2 net
      (writePrefix6 p defaultMask6) := by
  rw [getNetFilter6_eq haddr hnet hmask h1 h128 o,ho]
  exact ⟨rfl,rfl,rfl⟩

/-- From prefix length 9 on the filter does what its text says. -/
theorem filters6_of_long (haddr : '/'∉addr) (hnet : inetPton addr=some net)
    (hmask : Decimal p mask) (h9 : 9≤p) (h128 : p≤128) {env : Env}
    (henv : env.options.netfilter6mask=defaultMask6) :
    Filters6 inetPton (addr++ '/'::mask) env net p := by
  have hon := filter6On_read haddr hnet hmask (by omega) h128 henv
  intro iptr hwDir hv hpass
  have hm := writePrefix6_isPrefixMask h9
  have hf := hon.filteredBy env hv hpass hwDir
  simpa only [prefixMask_eq_iff h128 hm] using hf

/-- Up to prefix length 8 the filter drops a packet from the network that
differs from the filter address in its second byte. -/
theorem not_filters6_of_short (haddr : '/'∉addr) (hnet : inetPton addr=some net)
    (hmask : Decimal p mask) (h1 : 1≤p) (h8 : p≤8) {env : Env}
    (henv : env.options.netfilter6mask=defaultMask6) :
    ¬Filters6 inetPton (addr++ '/'::mask) env net p := by
  intro hf
  have hon := filter6On_read haddr hnet hmask h1 (by omega) henv
  -- from the near address to the far one: outgoing by the text, dropped by the code
  obtain ⟨hv,hs,hd⟩ := ip6Packet_fields 17 (nearMiss net) (farMiss net)
  have hpass (o : OptionsT) : PassesLinkLocal o (ip6Packet 17 (nearMiss net) (farMiss net)) := by
    rw [PassesLinkLocal,hs,hd]
    exact .inr (miss_not_linklocal net)
  have htext := (hf _ 0 hv (hpass _)).accounted_iff
  have hcode := (hon.filteredBy env hv (hpass _) 0).accounted_iff
  rw [hs,hd] at htext hcode
  have hin := nearMiss_agrees net h8
  have hout : ¬AgreeOn p (farMiss net) net := fun h => farMiss_first net (h 0 h1)
  rcases hcode.mp (htext.mpr (.inl ⟨hin,hout⟩)) with ⟨h,-⟩|⟨h,-⟩
  · exact nearMiss_masked net h8 h
  · exact farMiss_masked net (writePrefix6_first h1 h8) h

end Read6

/-- The IPv6 filter over the default mask does what its text says exactly from
prefix length 9 on: below, the second byte of the default mask is still compared. -/
theorem net_filter6_iff (inetPton : CString→Option In6Addr) {addr mask : CString}
    {net : In6Addr} {p : ℕ} (haddr : '/'∉addr) (hnet : inetPton addr=some net)
    (hmask : Decimal p mask) (h1 : 1≤p) (h128 : p≤128) (env : Env)
    (henv : env.options.netfilter6mask=optionsSetDefaults.netfilter6mask) :
    Filters6 inetPton (addr++ '/'::mask) env net p ↔ 9≤p := by
  constructor
  · intro hf
    by_contra h9
    exact not_filters6_of_short haddr hnet hmask h1 (by omega) henv hf
  · intro h9
    exact filters6_of_long haddr hnet hmask h9 h128 henv

/-- Value of a hexadecimal digit. -/
def hexDigit (c : Char) : Option ℕ :=
  if c.isDigit then some (c.toNat-48)
  else if 'a' ≤ c ∧ c ≤ 'f' then some (c.toNat-87)
  else if 'A' ≤ c ∧ c ≤ 'F' then some (c.toNat-55)
  else none

/-- The two bytes of a group of one to four hexadecimal digits. -/
def groupBytes (s : CString) : Option (List UInt8) :=
  if s=[] ∨ s.length>4 then none
  else do
    let value := (←s.mapM hexDigit).foldl (fun n d => 16*n+d) 0
    return [.ofNat (value/256),.ofNat value]

/-- `inet_pton` on groups that end in a double colon. -/
def parseNet6 (s : CString) : Option In6Addr :=
  match (s.splitOn ':').reverse with
  | []::[]::groups => do
    let bytes := (←groups.reverse.mapM groupBytes).flatten
    if bytes.length<16 then return fun j => bytes.getD j 0 else none
  | _ => none

/-- The filter `2001:db8::/32` filters by its prefix, whose length is at least nine. -/
theorem net_filter6_iff_slash32 :
    Filters6 parseNet6 "2001:db8::/32".toList bareEnv
      ![0x20,0x01,0x0d,0xb8,0,0,0,0,0,0,0,0,0,0,0,0] 32 ↔ 9≤32 :=
  have haddr : '/'∉"2001:db8::".toList := by decide
  have hmask : Decimal 32 "32".toList := ⟨by decide,by decide,by decide⟩
  net_filter6_iff parseNet6 haddr (by decide) hmask (by decide) (by decide) bareEnv rfl

/-- The filter `2000::/3` of all global unicast addresses fails: a packet from
`2001::` to an address outside is dropped. -/
theorem net_filter6_slash3 :
    ¬Filters6 parseNet6 "2000::/3".toList bareEnv
      ![0x20,0,0,0,0,0,0,0,0,0,0,0,0,0,0,0] 3 :=
  have haddr : '/'∉"2000::".toList := by decide
  have hmask : Decimal 3 "3".toList := ⟨by decide,by decide,by decide⟩
  not_filters6_of_short haddr (by decide) hmask (by decide) (by decide) rfl

end IftopColor.NetFilter
