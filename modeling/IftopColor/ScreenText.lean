import IftopColor.Export
import IftopColor.Resolver
import IftopColor.TextBuffer

/-!
# The text buffers of the screen

`ui_print` derives the width of a host name from the width of the terminal and
hands it to `sprint_host`, which uses it as a field width, as a length without its
terminator and as the size of the resolver's buffer. On buffers with checked
accesses and arbitrary contents the results say for which terminals all texts fit
and are determined.
-/

namespace IftopColor.ScreenText

open AddrHash Options OptionsMake Resolver Screen Export TextBuffer

/-- `HOSTNAME_LENGTH`. -/
def hostnameLength : ℕ := 256

/-- What the text of a host is printed from. -/
structure TextEnv where
  /-- `inet_ntop`. -/
  inetNtop : Ntop
  /-- `serv_table_lookup` on the table of services. -/
  servTableLookup : ℤ→ℤ→Option (List Char)

/-- `IN6_IS_ADDR_UNSPECIFIED`. -/
def in6IsAddrUnspecified (addr : In6Addr) : Bool := decide (addr=fun _ => 0)

/-- The width of a host name. -/
def hostWidth (cols : ℤ) (o : AllOptions) : ℤ :=
  let l := (cols-8*historyDivisions-4).tdiv 2
  let l := if o.showTotals then l-4 else l
  let l := if o.showProcesses then l-8 else l
  let l := if l>hostnameLength then (hostnameLength : ℤ) else l
  if l<1 then 1 else l

/-- The host name, with the names of the resolver or without. -/
def printHostname (env : TextEnv) (o : AllOptions) (af : AddressFamily) (addr : In6Addr)
    (maxlen : ℤ) (hostname : Buffer) (s : ResolverState) :
    Except Fault (Buffer×ResolverState) :=
  if in6IsAddrUnspecified addr then do
    let hostname ← snprintf hostnameLength hostname 0 hostnameLength " * ".toList
    return (hostname,s)
  else if o.dnsresolution then
    match resolve env.inetNtop o.toOptionsT af addr maxlen s with
    | (none,_,s) => return (hostname,s)
    | (some text,_,s) => do
      -- strncpy fills the rest with terminators
      let hostname ← store hostnameLength hostname 0 ((cut text).rightpad (maxlen-1).toNat nul)
      return (hostname,s)
  else if (env.inetNtop af addr).length<hostnameLength then do
    let hostname ← store hostnameLength hostname 0 (env.inetNtop af addr)
    return (hostname,s)
  else return (hostname,s)

/-- The service, if a port is given. Port and protocol become signed when they are passed. -/
def printService (env : TextEnv) (o : AllOptions) (port protocol : UInt32) (service : Buffer) :
    Except Fault Buffer :=
  if port≠0 then
    match if o.portresolution then env.servTableLookup port.toInt32.toInt protocol.toInt32.toInt
      else none with
    | some name => snprintf hostnameLength service 0 hostnameLength (':'::name)
    | none => snprintf hostnameLength service 0 hostnameLength (':'::printInt port.toInt32.toInt)
  else put hostnameLength service 0 nul

/-- `sprint_host`, given what its arrays hold at first. -/
def sprintHost (env : TextEnv) (o : AllOptions) (af : AddressFamily) (addr : In6Addr)
    (port protocol : UInt32) (maxlen : ℤ) (line hostname service : Buffer) (s : ResolverState) :
    Except Fault (Buffer×ResolverState) := do
  let (hostname,s) ← printHostname env o af addr maxlen hostname s
  let left ← strlen hostnameLength hostname 0
  let service ← printService env o port protocol service
  let name ← textAt hostnameLength hostname 0
  let line ← snprintf hostnameLength line 0 (maxlen+1) (name.rightpad maxlen.toNat ' ')
  let n ← strlen hostnameLength service 0
  let left := if left>maxlen-n then (if maxlen-n<0 then 0 else maxlen-n) else left
  let suffix ← textAt hostnameLength service 0
  let line ← snprintf hostnameLength line left (maxlen-left+1)
    (suffix.rightpad (maxlen-left).toNat ' ')
  return (line,s)

/-- The arrays of `ui_print` and of its two calls of `sprint_host`, which are not
initialised. -/
structure Locals where
  /-- `host1`. -/
  host1 : Buffer
  /-- `hostname` in the first call. -/
  hostname1 : Buffer
  /-- `service` in the first call. -/
  service1 : Buffer
  /-- `host2`. -/
  host2 : Buffer
  /-- `hostname` in the second call. -/
  hostname2 : Buffer
  /-- `service` in the second call. -/
  service2 : Buffer

/-- The texts that `ui_print` makes of the two hosts of a line. -/
def printHosts (env : TextEnv) (cols : ℤ) (o : AllOptions) (ap : AddrPair) (s : ResolverState)
    (locals : Locals) : Except Fault (List Char×List Char×ResolverState) := do
  let l := hostWidth cols o
  let (host1,s) ← sprintHost env o ap.addressFamily ap.src6 ap.srcPort.toUInt32
    ap.protocol.toUInt32 l locals.host1 locals.hostname1 locals.service1 s
  let (host2,s) ← sprintHost env o ap.addressFamily ap.dst6 ap.dstPort.toUInt32
    ap.protocol.toUInt32 l locals.host2 locals.hostname2 locals.service2 s
  let text1 ← textAt hostnameLength host1 0
  let text2 ← textAt hostnameLength host2 0
  return (text1,text2,s)

/-- `UNIT_DIVISIONS`. -/
def unitDivisions : ℕ := 4

/-- `unit_bits`. -/
def unitBits : List (List Char) := ["b".toList,"kb".toList,"Mb".toList,"Gb".toList]

/-- `unit_bytes`. -/
def unitBytes : List (List Char) := ["B".toList,"kB".toList,"MB".toList,"GB".toList]

/-- An integer as a `float`: 24 significant bits, with ties to even. -/
def toFloat (n : ℤ) : ℚ :=
  let k := n.natAbs.log2-23
  n.sign*(roundEven (n.natAbs/2^k)*2^k : ℕ)

/-- `%4.pf`. -/
def printFloat (p : ℕ) (q : ℚ) : List Char :=
  let n := roundEven (|q| * 10^p)
  let digits := printUnsigned (n/10^p)++
    if p=0 then [] else '.'::(printUnsigned (n%10^p)).leftpad p '0'
  (if q<0 then '-'::digits else digits).leftpad 4 ' '

/-- The loop over the units, with as many of them left. For powers of two as they are
passed here the arithmetic of `float` is exact. -/
def sizeLoop (ksize : ℕ) (units : List (List Char)) (bandwidth : ℚ) : ℕ→ℚ→List Char
  | 0,size => ' '::(printFloat 0 (bandwidth/size)++units.getD (unitDivisions-1) [])
  | k+1,size =>
    if bandwidth<size*1000 then
      ' '::(printFloat 0 (bandwidth/size)++units.getD (unitDivisions-1-(k+1)) [])
    else
      let unit := units.getD (unitDivisions-1-k) []
      let size := size*ksize
      if bandwidth<size*10 then ' '::(printFloat 2 (bandwidth/size)++unit)
      else if bandwidth<size*100 then ' '::(printFloat 1 (bandwidth/size)++unit)
      else sizeLoop ksize units bandwidth k size

/-- `readable_size` into a buffer that has some size, and is said to have another. -/
def readableSize (size : ℕ) (bandwidth : ℚ) (buf : Buffer) (bsize ksize : ℕ) (bytes : Bool) :
    Except Fault Buffer :=
  let bandwidth := if bytes then bandwidth else bandwidth*8
  snprintf size buf 0 bsize
    (sizeLoop ksize (if bytes then unitBytes else unitBits) bandwidth (unitDivisions-1) 1)

/-- Counters that are shown below the lines. -/
structure Counters where
  /-- `history_totals.total_sent`. -/
  totalSent : UInt64
  /-- `history_totals.total_recv`. -/
  totalRecv : UInt64
  /-- `peaksent`. -/
  peaksent : Int32
  /-- `peakrecv`. -/
  peakrecv : Int32
  /-- `peaktotal`. -/
  peaktotal : Int32

/-- What `readable_size` is called with, in order. -/
def amounts (o : AllOptions) (t : Counters) : List (ℚ×Bool) :=
  [(toFloat t.totalSent.toNat,true),(toFloat t.totalRecv.toNat,true),
    (toFloat (t.totalRecv+t.totalSent).toNat,true),
    (toFloat t.peaksent.toInt/resolution,o.bandwidthInBytes),
    (toFloat t.peakrecv.toInt/resolution,o.bandwidthInBytes),
    (toFloat t.peaktotal.toInt/resolution,o.bandwidthInBytes)]

/-- One call after the other into the same buffer. -/
def printAmounts (size : ℕ) : List (ℚ×Bool)→Buffer→Except Fault (List (List Char))
  | [],_ => return []
  | (bandwidth,bytes)::rest,line => do
    let line ← readableSize size bandwidth line 10 1024 bytes
    let text ← textAt size line 0
    let texts ← printAmounts size rest line
    return text::texts

/-- The texts of the counters, by way of `line`, which has room for a row. -/
def printSizes (cols : ℤ) (o : AllOptions) (t : Counters) (line : Buffer) :
    Except Fault (List (List Char)) :=
  printAmounts (cols+1).toNat (amounts o t) line

/-- Columns that the totals and the process names take away from the hosts. -/
def reserved (o : AllOptions) : ℤ :=
  (if o.showTotals then 8 else 0)+if o.showProcesses then 16 else 0

/-- Half of a number of columns, for what a clamp looks at. -/
theorem tdiv_two_le (x k : ℤ) (hk : 0≤k) : x.tdiv 2≤k ↔ x≤2*k+1 := by
  rcases le_or_gt 0 x with hx|hx
  · rw [Int.tdiv_eq_ediv_of_nonneg hx]
    omega
  · have hpos : 0≤(-x).tdiv 2 := Int.tdiv_nonneg (by omega) (by omega)
    rw [Int.neg_tdiv] at hpos
    omega

/-- A host name has a width of one column at least. -/
theorem hostWidth_pos (cols : ℤ) (o : AllOptions) : 1≤hostWidth cols o := by
  simp only [hostWidth]
  split_ifs <;> omega

/-- Which terminals leave room for the terminator. -/
theorem hostWidth_le_iff (cols : ℤ) (o : AllOptions) {k : ℤ} (h1 : 1≤k) (h2 : k≤255) :
    hostWidth cols o≤k ↔ cols≤2*k+29+reserved o := by
  have hdiv := tdiv_two_le (cols-28)
  have hk₀ := hdiv k (by omega)
  have hk₁ := hdiv (k+4) (by omega)
  have hk₂ := hdiv (k+8) (by omega)
  have hk₃ := hdiv (k+12) (by omega)
  simp only [hostWidth,hostnameLength,historyDivisions,reserved]
  norm_num only
  have hcols : cols-24-4=cols-28 := by omega
  rw [hcols]
  split_ifs <;> omega

variable {env : TextEnv} {o : AllOptions} {af : AddressFamily} {addr : In6Addr} {s : ResolverState}

/-- `inet_ntop` fits into `INET6_ADDRSTRLEN`. -/
def NtopFits (ntop : Ntop) : Prop := ∀ af addr,(ntop af addr).length<46

/-- The name of a host is stored: it needs no resolver, or the resolver has room. -/
def Named (o : AllOptions) (addr : In6Addr) (maxlen : ℤ) : Prop :=
  o.dnsresolution=true→in6IsAddrUnspecified addr=false→1< maxlen

/-- A text stored from the start of a buffer on is held by it. -/
theorem store_start {text : List Char} {size : ℕ} (buf : Buffer) (h : text.length<size) :
    ∃ buf',store size buf 0 text=.ok buf' ∧ Holds size buf' (cut text) := by
  have hs := @store_holds size buf [] text (by simp) (by simp) (by simpa using h)
  simpa using hs

/-- With room for a character the resolver gives a text. -/
theorem resolve_named (af : AddressFamily) (addr : In6Addr) (hd : o.dnsresolution=true)
    {maxlen : ℕ} (hlen : (1 : ℤ)< maxlen) (s : ResolverState) :
    ∃ text added s',resolve env.inetNtop o.toOptionsT af addr maxlen s=(some text,added,s') ∧
      text.length≤ maxlen-1 := by
  rw [resolve,if_pos hd]
  dsimp only
  rw [copyResult,if_pos hlen]
  refine ⟨_,_,_,rfl,?_⟩
  rw [List.length_take]
  omega

/-- The printed form of an address. -/
def hostLabel (inetNtop : Ntop) (af : AddressFamily) (addr : In6Addr) : List Char :=
  if in6IsAddrUnspecified addr then " * ".toList else cut (inetNtop af addr)

/-- Nothing for port 0, otherwise a colon and the name or the number of the service. -/
def serviceLabel (env : TextEnv) (o : AllOptions) (port protocol : UInt32) : List Char :=
  if port=0 then []
  else
    let name := if o.portresolution then
        env.servTableLookup port.toInt32.toInt protocol.toInt32.toInt
      else none
    cut (':'::name.getD (printInt port.toInt32.toInt))

/-- Without the resolver the printed form is stored. -/
theorem printHostname_label (hfit : NtopFits env.inetNtop) (af : AddressFamily)
    (h : o.dnsresolution=true→in6IsAddrUnspecified addr=true) (maxlen : ℤ) (hostname : Buffer)
    (s : ResolverState) :
    ∃ buf,printHostname env o af addr maxlen hostname s=.ok (buf,s) ∧
      Holds hostnameLength buf (hostLabel env.inetNtop af addr) := by
  cases hu : in6IsAddrUnspecified addr with
  | true =>
    obtain ⟨buf,hs,hh⟩ := @snprintf_start hostnameLength " * ".toList hostname 256 (by decide)
      (by decide)
    refine ⟨buf,?_,?_⟩
    · rw [printHostname,if_pos hu]
      exact congrArg (· >>= fun buf => return (buf,s)) hs
    · rw [hostLabel,if_pos hu]
      exact hh
  | false =>
    have hd : ¬o.dnsresolution=true := fun hd => Bool.false_ne_true (hu.symm.trans (h hd))
    have hlen : (env.inetNtop af addr).length<hostnameLength := (hfit af addr).trans (by decide)
    obtain ⟨buf,hs,hh⟩ := store_start hostname hlen
    refine ⟨buf,?_,?_⟩
    · rw [printHostname,if_neg (by simp [hu]),if_neg hd,if_pos hlen,hs]
      rfl
    · rw [hostLabel,if_neg (by simp [hu])]
      exact hh

/-- The name that is stored does not depend on what the array held. -/
theorem printHostname_ok (hfit : NtopFits env.inetNtop) (af : AddressFamily) {maxlen : ℕ}
    (hm : maxlen≤256) (hnamed : Named o addr maxlen) (s : ResolverState) :
    ∃ name s',∀ hostname,∃ buf,printHostname env o af addr maxlen hostname s=.ok (buf,s') ∧
      Holds hostnameLength buf name := by
  by_cases h : o.dnsresolution=true→in6IsAddrUnspecified addr=true
  · exact ⟨_,s,fun hostname => printHostname_label hfit af h maxlen hostname s⟩
  · obtain ⟨hd,hu⟩ := Classical.not_imp.mp h
    have hu := Bool.eq_false_of_not_eq_true hu
    have hlen : (1 : ℤ)< maxlen := hnamed hd hu
    obtain ⟨text,added,s',hr,ht⟩ := resolve_named af addr hd hlen s
    refine ⟨cut ((cut text).rightpad (maxlen-1) nul),s',fun hostname => ?_⟩
    have hcut : (cut text).length≤text.length := (List.takeWhile_prefix _).length_le
    obtain ⟨buf,hs,hh⟩ := @store_start ((cut text).rightpad (maxlen-1) nul)
      hostnameLength hostname (by rw [List.length_rightpad,hostnameLength]; omega)
    have hcast : ((maxlen : ℤ)-1).toNat=maxlen-1 := by omega
    refine ⟨buf,?_,hh⟩
    rw [printHostname,if_neg (by simp [hu]),if_pos hd,hr]
    dsimp only
    rw [hcast,hs]
    rfl

/-- The service is stored as far as its array has room. -/
theorem printService_label (env : TextEnv) (o : AllOptions) (port protocol : UInt32)
    (service : Buffer) :
    ∃ buf,printService env o port protocol service=.ok buf ∧
      Holds hostnameLength buf ((serviceLabel env o port protocol).take 255) := by
  have hprint : ∀ text : List Char,∃ buf,
      snprintf hostnameLength service 0 hostnameLength text=.ok buf ∧
        Holds hostnameLength buf ((cut text).take 255) := by
    intro text
    have hroom : (text.take 255).length<hostnameLength := by
      rw [List.length_take]
      exact (Nat.min_le_left _ _).trans_lt (by decide)
    have hs := @snprintf_start hostnameLength text service 256 (by decide) hroom
    rw [cut,List.take_takeWhile]
    exact hs
  by_cases hp : port=0
  · rw [printService,if_neg (not_not_intro hp),serviceLabel,if_pos hp]
    exact @store_start [] hostnameLength service (by decide)
  · rw [printService,if_pos hp,serviceLabel,if_neg hp]
    dsimp only
    cases (if o.portresolution then env.servTableLookup port.toInt32.toInt protocol.toInt32.toInt
      else none) with
    | none => exact hprint _
    | some name => exact hprint _

/-- The service begins where both texts fit, or at the end of the host. -/
theorem left_eq (l k n : ℕ) :
    (if (k : ℤ)>l-n then (if (l : ℤ)-n<0 then 0 else (l : ℤ)-n) else k)=
      ((min k (l-n) : ℕ) : ℤ) := by
  split_ifs <;> omega

/-- A padded text has no terminator if the text has none. -/
theorem rightpad_clean {text : List Char} (h : ∀ c∈text,c≠nul) (n m : ℕ) :
    ∀ c∈(text.rightpad n ' ').take m,c≠nul := by
  intro c hc
  rcases List.mem_append.mp (List.mem_of_mem_take hc) with hc|hc
  · exact h c hc
  · rw [List.eq_of_mem_replicate hc]
    decide

/-- The text of a host: its name, cut where the service begins. -/
def hostText (maxlen : ℕ) (name suffix : List Char) : List Char :=
  let left := min name.length (maxlen-suffix.length)
  (name.rightpad maxlen ' ').take left++(suffix.rightpad (maxlen-left) ' ').take (maxlen-left)

/-- The name is printed over the whole width, and the service over its end. -/
theorem overprint_ok {maxlen left : ℕ} (hm : maxlen≤255) {name suffix : List Char}
    (hn : ∀ c∈name,c≠nul) (hv : ∀ c∈suffix,c≠nul)
    (hleft : left=min name.length (maxlen-suffix.length)) (line : Buffer) :
    ∃ padded done,
      snprintf hostnameLength line 0 ((maxlen+1 : ℕ) : ℤ) (name.rightpad maxlen ' ')=.ok padded ∧
      snprintf hostnameLength padded left ((maxlen-left+1 : ℕ) : ℤ)
        (suffix.rightpad (maxlen-left) ' ')=.ok done ∧
      Holds hostnameLength done (hostText maxlen name suffix) := by
  have hpad : ((name.rightpad maxlen ' ').take maxlen).length=maxlen := by
    rw [List.length_take,List.length_rightpad]
    omega
  obtain ⟨padded,hs,hl⟩ := @snprintf_start hostnameLength (name.rightpad maxlen ' ') line
    (maxlen+1) (Nat.succ_pos _) (by rw [Nat.add_sub_cancel,hpad,hostnameLength]; omega)
  rw [Nat.add_sub_cancel,cut_of_clean (rightpad_clean hn maxlen maxlen)] at hl
  have hw : ((name.rightpad maxlen ' ').take left).length=left := by
    rw [List.length_take,List.length_rightpad]
    omega
  have hwbuf : ∀ i (h : i<((name.rightpad maxlen ' ').take left).length),
      padded i=((name.rightpad maxlen ' ').take left)[i] := by
    intro i h
    rw [hl.chars i (by omega),List.getElem_take,List.getElem_take]
  have hrest : ((suffix.rightpad (maxlen-left) ' ').take (maxlen-left)).length=maxlen-left := by
    rw [List.length_take,List.length_rightpad]
    omega
  obtain ⟨done,hd,hh⟩ := @snprintf_holds hostnameLength padded (suffix.rightpad (maxlen-left) ' ')
    _ (maxlen-left+1) hwbuf (rightpad_clean hn maxlen left) (Nat.succ_pos _)
    (by rw [hw,Nat.add_sub_cancel,hrest,hostnameLength]; omega)
  rw [Nat.add_sub_cancel,cut_of_clean (rightpad_clean hv _ _)] at hh
  rw [hw] at hd
  refine ⟨padded,done,hs,hd,?_⟩
  rw [hostText,← hleft]
  exact hh

/-- A name and a service that are stored are printed into one text. -/
theorem sprintHost_parts {maxlen : ℕ} (hm : maxlen≤255) {port protocol : UInt32}
    {hostname service buf₁ buf₂ : Buffer} {s' : ResolverState} {name suffix : List Char}
    (h₁ : printHostname env o af addr maxlen hostname s=.ok (buf₁,s'))
    (hn : Holds hostnameLength buf₁ name)
    (h₂ : printService env o port protocol service=.ok buf₂)
    (hv : Holds hostnameLength buf₂ suffix) (line : Buffer) :
    ∃ buf,sprintHost env o af addr port protocol maxlen line hostname service s=.ok (buf,s') ∧
      Holds hostnameLength buf (hostText maxlen name suffix) := by
  obtain ⟨left,hleft⟩ : ∃ left,left=min name.length (maxlen-suffix.length) := ⟨_,rfl⟩
  obtain ⟨padded,done,h₃,h₄,hh⟩ := overprint_ok hm hn.clean hv.clean hleft line
  refine ⟨done,?_,hh⟩
  have hcast : (maxlen : ℤ)+1=((maxlen+1 : ℕ) : ℤ) := by omega
  have hcast' : (maxlen : ℤ)-left+1=((maxlen-left+1 : ℕ) : ℤ) := by omega
  have hcast'' : ((maxlen : ℤ)-left).toNat=maxlen-left := by omega
  rw [sprintHost,h₁,ok_bind]
  dsimp only
  rw [hn.strlen_eq,ok_bind,h₂,ok_bind,hn.textAt_eq,ok_bind,Int.toNat_natCast,hcast,h₃,ok_bind,
    hv.strlen_eq,ok_bind,left_eq,← hleft,hv.textAt_eq,ok_bind,hcast',hcast'',h₄]
  rfl

/-- The text of a host, when it fits and its name is stored. -/
theorem sprintHost_ok (hfit : NtopFits env.inetNtop) (af : AddressFamily) {maxlen : ℕ}
    (hm : maxlen≤255) (hnamed : Named o addr maxlen) (port protocol : UInt32)
    (s : ResolverState) :
    ∃ text s',∀ line hostname service,∃ buf,
      sprintHost env o af addr port protocol maxlen line hostname service s=.ok (buf,s') ∧
        Holds hostnameLength buf text := by
  obtain ⟨name,s',hname⟩ := printHostname_ok hfit af (hm.trans (by decide)) hnamed s
  refine ⟨hostText maxlen name ((serviceLabel env o port protocol).take 255),s',
    fun line hostname service => ?_⟩
  obtain ⟨buf₁,h₁,hn⟩ := hname hostname
  obtain ⟨buf₂,h₂,hv⟩ := printService_label env o port protocol service
  exact sprintHost_parts hm h₁ hn h₂ hv line

/-- Without room for its terminator it is written behind the array. -/
theorem sprintHost_wide {maxlen : ℕ} (hm : hostnameLength≤ maxlen) (port protocol : UInt32)
    (line hostname service : Buffer) (r : Buffer×ResolverState) :
    sprintHost env o af addr port protocol maxlen line hostname service s≠.ok r := by
  intro h
  rw [sprintHost] at h
  obtain ⟨⟨buf₁,s'⟩,-,h⟩ := eq_ok_of_bind h
  obtain ⟨left,-,h⟩ := eq_ok_of_bind h
  obtain ⟨buf₂,-,h⟩ := eq_ok_of_bind h
  obtain ⟨name,-,h⟩ := eq_ok_of_bind h
  obtain ⟨buf₃,hs,-⟩ := eq_ok_of_bind h
  rw [snprintf,if_neg (by omega)] at hs
  have hfits := store_fits (i:=0) hs
  rw [List.length_take,List.length_rightpad] at hfits
  omega

/-- A name that is not stored is read from an array that was never written. -/
theorem sprintHost_unnamed {maxlen : ℤ} (h : ¬Named o addr maxlen) (port protocol : UInt32)
    (line service : Buffer) (r : Buffer×ResolverState) :
    sprintHost env o af addr port protocol maxlen line (fun _ => ' ') service s≠.ok r := by
  simp only [Named,not_forall,not_lt] at h
  obtain ⟨hd,hu,hlen⟩ := h
  intro h
  rw [sprintHost] at h
  obtain ⟨⟨buf₁,s'⟩,h₁,h⟩ := eq_ok_of_bind h
  obtain ⟨left,hn,-⟩ := eq_ok_of_bind h
  have hkeep : buf₁=fun _ => ' ' := by
    rw [printHostname,if_neg (by simp [hu]),if_pos hd,resolve,if_pos hd] at h₁
    dsimp only at h₁
    rw [copyResult,if_neg (by omega)] at h₁
    cases h₁
    rfl
  rw [hkeep] at hn
  exact strlen_unterminated (fun _ => by decide) 0 left hn

/-- The texts of both hosts are determined exactly when they fit and both names are stored. -/
theorem printHosts_iff (hfit : NtopFits env.inetNtop) (cols : ℤ) (o : AllOptions) (ap : AddrPair)
    (s : ResolverState) :
    (∃ out,∀ locals,printHosts env cols o ap s locals=.ok out) ↔
      hostWidth cols o≤255 ∧ Named o ap.src6 (hostWidth cols o) ∧
        Named o ap.dst6 (hostWidth cols o) := by
  have hpos := hostWidth_pos cols o
  obtain ⟨maxlen,hmax⟩ : ∃ maxlen : ℕ,hostWidth cols o=maxlen := ⟨(hostWidth cols o).toNat,by omega⟩
  simp only [printHosts,hmax]
  constructor
  · rintro ⟨out,hout⟩
    refine ⟨?_,?_,?_⟩
    · by_contra hwide
      obtain ⟨r,hr,-⟩ := eq_ok_of_bind (hout ⟨fun _ => nul,fun _ => nul,fun _ => nul,fun _ => nul,
        fun _ => nul,fun _ => nul⟩)
      exact sprintHost_wide (by rw [hostnameLength]; omega) _ _ _ _ _ _ hr
    · by_contra hname
      obtain ⟨r,hr,-⟩ := eq_ok_of_bind (hout ⟨fun _ => nul,fun _ => ' ',fun _ => nul,fun _ => nul,
        fun _ => nul,fun _ => nul⟩)
      exact sprintHost_unnamed hname _ _ _ _ _ hr
    · by_contra hname
      obtain ⟨⟨host1,s'⟩,-,hrest⟩ := eq_ok_of_bind (hout ⟨fun _ => nul,fun _ => nul,fun _ => nul,
        fun _ => nul,fun _ => ' ',fun _ => nul⟩)
      obtain ⟨r,hr,-⟩ := eq_ok_of_bind hrest
      exact sprintHost_unnamed hname _ _ _ _ _ hr
  · rintro ⟨hm,h1,h2⟩
    obtain ⟨text1,s₁,hs1⟩ := sprintHost_ok hfit ap.addressFamily (by omega) h1
      ap.srcPort.toUInt32 ap.protocol.toUInt32 s
    obtain ⟨text2,s₂,hs2⟩ := sprintHost_ok hfit ap.addressFamily (by omega) h2
      ap.dstPort.toUInt32 ap.protocol.toUInt32 s₁
    refine ⟨(text1,text2,s₂),fun locals => ?_⟩
    obtain ⟨buf₁,h₁,hh₁⟩ := hs1 locals.host1 locals.hostname1 locals.service1
    obtain ⟨buf₂,h₂,hh₂⟩ := hs2 locals.host2 locals.hostname2 locals.service2
    rw [h₁,ok_bind]
    dsimp only
    rw [h₂,ok_bind]
    dsimp only
    rw [hh₁.textAt_eq,ok_bind,hh₂.textAt_eq,ok_bind]
    rfl

/-- Amounts fit when the buffer has room for ten bytes. -/
theorem printAmounts_ok {size : ℕ} (h : 10≤ size) (list : List (ℚ×Bool)) :
    ∃ texts,∀ line,printAmounts size list line=.ok texts := by
  induction list with
  | nil => exact ⟨[],fun _ => rfl⟩
  | cons p list ih =>
    obtain ⟨bandwidth,bytes⟩ := p
    obtain ⟨texts,ht⟩ := ih
    obtain ⟨text,hsize⟩ : ∃ text,∀ line,∃ buf,
        readableSize size bandwidth line 10 1024 bytes=.ok buf ∧ Holds size buf text := by
      refine ⟨_,fun line => @snprintf_start size _ line 10 (by decide) ?_⟩
      rw [List.length_take]
      exact (Nat.min_le_left _ _).trans_lt h
    refine ⟨text::texts,fun line => ?_⟩
    obtain ⟨buf,hb,hh⟩ := hsize line
    rw [printAmounts,hb,ok_bind,hh.textAt_eq,ok_bind,ht,ok_bind]
    rfl

/-- Counters with a large number of bytes sent. -/
def largeCounters : Counters := ⟨0-1,0,0,0,0⟩

/-- The first text of `largeCounters` has nine characters or more. -/
theorem sizeLoop_large :
    9≤(sizeLoop 1024 unitBytes (toFloat largeCounters.totalSent.toNat)
      (unitDivisions-1) 1).length := by
  decide +kernel

/-- The texts of all counters fit exactly into rows of nine columns and more. -/
theorem printSizes_iff (cols : ℤ) (o : AllOptions) :
    (∀ t,∃ texts,∀ line,printSizes cols o t line=.ok texts) ↔ 9≤ cols := by
  constructor
  · intro h
    obtain ⟨texts,ht⟩ := h largeCounters
    obtain ⟨buf,hb,-⟩ := eq_ok_of_bind (ht fun _ => nul)
    rw [readableSize,snprintf,if_neg (by decide)] at hb
    have hfits := store_fits (i:=0) hb
    have hlarge := sizeLoop_large
    rw [List.length_take] at hfits
    simp only [if_true] at hfits
    omega
  · intro h t
    exact printAmounts_ok (by omega) (amounts o t)

/-- All texts of a line and of the counters are stored within their buffers, and depend on the
line, the options and the resolver only, exactly when the terminal has nine columns or more, the
hosts have no more than 255 columns each, and a host name that comes from the resolver has more
than one. -/
theorem screen_text_iff (env : TextEnv) (hfit : NtopFits env.inetNtop) (cols : ℤ) (o : AllOptions)
    (ap : AddrPair) (s : ResolverState) :
    ((∃ out,∀ locals,printHosts env cols o ap s locals=.ok out) ∧
        ∀ t,∃ texts,∀ line,printSizes cols o t line=.ok texts) ↔
      9≤ cols ∧ cols≤539+reserved o ∧
        (o.dnsresolution=true→ cols≤31+reserved o→
          in6IsAddrUnspecified ap.src6=true ∧ in6IsAddrUnspecified ap.dst6=true) := by
  have hwide := hostWidth_le_iff cols o (k:=255) (by decide) (by decide)
  have hone := hostWidth_le_iff cols o (k:=1) (by decide) (by decide)
  have hnamed : ∀ addr,Named o addr (hostWidth cols o) ↔
      (o.dnsresolution=true→ cols≤31+reserved o→in6IsAddrUnspecified addr=true) := by
    intro addr
    unfold Named
    cases in6IsAddrUnspecified addr with
    | true => simp
    | false =>
      have hlt : 1<hostWidth cols o ↔ ¬cols≤31+reserved o := by omega
      simp [hlt]
  rw [printHosts_iff hfit,printSizes_iff,hwide,hnamed,hnamed]
  constructor
  · rintro ⟨⟨hw,h1,h2⟩,h9⟩
    exact ⟨h9,by omega,fun hd hc => ⟨h1 hd hc,h2 hd hc⟩⟩
  · rintro ⟨h9,hw,h⟩
    exact ⟨⟨by omega,fun hd hc => (h hd hc).1,fun hd hc => (h hd hc).2⟩,h9⟩

/-- Parts that are short are short when joined. -/
theorem length_intercalate_le {parts : List (List Char)} {m : ℕ} (c : Char)
    (h : ∀ part∈parts,part.length≤ m) : (List.intercalate [c] parts).length≤parts.length*(m+1) := by
  induction parts with
  | nil => simp
  | cons part parts ih =>
    have hpart := h part List.mem_cons_self
    have hrest := ih fun p hp => h p (List.mem_cons_of_mem part hp)
    cases parts with
    | nil =>
      rw [List.intercalate_singleton]
      simp
      omega
    | cons next parts =>
      rw [List.intercalate_cons_cons]
      simp only [List.length_append,List.length_cons,List.length_nil] at hrest ⊢
      rw [Nat.add_mul,Nat.one_mul]
      omega

/-- Addresses that are written in full fit in the buffer. -/
theorem plainNtop_fits : NtopFits plainNtop := by
  intro af addr
  cases af with
  | unspec => exact Nat.zero_lt_succ 45
  | inet =>
    have hlen := @length_intercalate_le
      ((List.finRange 4).map fun j => printUnsigned (inOfIn6 addr j).toNat) 3 '.' (by
      intro part hp
      obtain ⟨j,-,rfl⟩ := List.mem_map.mp hp
      have hlt := (inOfIn6 addr j).toNat_lt
      exact (Nat.length_toDigits_le_iff (by decide) (by decide)).mpr (by omega))
    exact hlen.trans_lt (by simp)
  | inet6 =>
    have hlen := @length_intercalate_le ((List.finRange 8).map fun j : Fin 8 =>
      Nat.toDigits 16 ((addr ⟨2*j,by omega⟩).toNat*256+(addr ⟨2*j+1,by omega⟩).toNat)) 4 ':' (by
      intro part hp
      obtain ⟨j,-,rfl⟩ := List.mem_map.mp hp
      have hhigh := (addr ⟨2*j,by omega⟩).toNat_lt
      have hlow := (addr ⟨2*j+1,by omega⟩).toNat_lt
      exact (Nat.length_toDigits_le_iff (by decide) (by decide)).mpr (by omega))
    exact hlen.trans_lt (by simp)

/-- Addresses in full, and no names for services. -/
def plainEnv : TextEnv := ⟨plainNtop,fun _ _ => none⟩

/-- The default options on a system without interfaces. -/
def bareOptions : AllOptions := allDefaults ⟨none,fun _ => none,fun _ => none⟩

/-- On a terminal of 80 columns hosts and sizes are drawn within their buffers. -/
theorem screen_text_iff_eighty :
    (∃ out,∀ locals,
        printHosts plainEnv 80 bareOptions quotedLine.ap resolverInitialise locals=.ok out) ∧
      ∀ t,∃ texts,∀ line,printSizes 80 bareOptions t line=.ok texts :=
  (screen_text_iff plainEnv plainNtop_fits 80 bareOptions quotedLine.ap resolverInitialise).mpr
    ⟨by decide,by decide,fun _ h => absurd h (by decide)⟩

/-- On a terminal of 556 columns the terminator of a host name does not fit. -/
theorem screen_text_wide :
    ¬∃ out,∀ locals,
      printHosts plainEnv 556 bareOptions quotedLine.ap resolverInitialise locals=.ok out := by
  rintro ⟨out,hout⟩
  obtain ⟨r,hr,-⟩ := eq_ok_of_bind (hout ⟨fun _ => nul,fun _ => nul,fun _ => nul,fun _ => nul,
    fun _ => nul,fun _ => nul⟩)
  exact sprintHost_wide (le_refl hostnameLength) _ _ _ _ _ _ hr

end IftopColor.ScreenText
