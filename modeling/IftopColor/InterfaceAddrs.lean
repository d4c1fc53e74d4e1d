import IftopColor.Resolver

/-!
# The addresses of an interface

The loop of `get_addrs_ioctl` over the list that `getifaddrs` returns. It takes the
first IPv4 address of the interface and reads everything else that is not skipped as an
IPv6 address, also a second IPv4 address that comes before the search is complete. If
there is none, the loop ends with the addresses it is meant to find.
-/

namespace IftopColor.InterfaceAddrs

open AddrHash PacketDirection Resolver

/-- `AF_INET`. -/
def afInet : ℕ := 2

/-- `AF_INET6`. -/
def afInet6 : ℕ := 10

/-- What an `ifa_addr` points to. -/
structure Sockaddr where
  /-- Member `sa_family`. -/
  saFamily : ℕ
  /-- The bytes from the start of the structure on, also those behind a short address. -/
  bytes : ℕ→UInt8

/-- `struct ifaddrs`. -/
structure Ifaddrs where
  /-- Member `ifa_name`. -/
  ifaName : List Char
  /-- Member `ifa_addr`, `none` for NULL. -/
  ifaAddr : Option Sockaddr

/-- `sin_addr` of a `struct sockaddr_in`. -/
def sinAddr (a : Sockaddr) : InAddr := fun j => a.bytes (4+j)

/-- `sin6_addr` of a `struct sockaddr_in6`. -/
def sin6Addr (a : Sockaddr) : In6Addr := fun j => a.bytes (8+j)

/-- Variables of `get_addrs_ioctl`. -/
structure Found where
  /-- `got_ip_addr`, zero or two. -/
  gotIpAddr : ℕ
  /-- `got_ip6_addr`, zero or four. -/
  gotIp6Addr : ℕ
  /-- What `if_ip_addr` points to. -/
  ifIpAddr : InAddr
  /-- What `if_ip6_addr` points to. -/
  ifIp6Addr : In6Addr
  /-- The addresses that were read as IPv6 addresses, latest first. -/
  readAs6 : List Sockaddr

/-- The body of the loop behind its first test. -/
def visit (interface : List Char) (ifa : Ifaddrs) (s : Found) : Found :=
  if ifa.ifaName≠interface then s
  else match ifa.ifaAddr with
    | none => s
    | some a =>
      if a.saFamily≠afInet ∧ a.saFamily≠afInet6 then s
      else if a.saFamily=afInet ∧ s.gotIpAddr=0 then
        {s with gotIpAddr := 2,ifIpAddr := sinAddr a}
      else
        let s := {s with readAs6 := a::s.readAs6}
        if in6IsAddrLinklocal (sin6Addr a) || in6IsAddrSitelocal (sin6Addr a) then s
        else {s with ifIp6Addr := sin6Addr a,gotIp6Addr := 4}

/-- The loop over the list, with its early end. -/
def getifaddrsLoop (interface : List Char) : List Ifaddrs→Found→Found
  | [],s => s
  | ifa::rest,s =>
    if s.gotIpAddr≠0 ∧ s.gotIp6Addr≠0 then s
    else getifaddrsLoop interface rest (visit interface ifa s)

/-- Before the loop, with whatever the address variables hold. -/
def Found.start (ip : InAddr) (ip6 : In6Addr) : Found := ⟨0,0,ip,ip6,[]⟩

/-- What `get_addrs_ioctl` returns. -/
def getAddrsIoctl (gotHwAddr : Bool) (s : Found) : ℕ :=
  gotHwAddr.toNat+s.gotIpAddr+s.gotIp6Addr

/-- `have_ip_addr` of `packet_init`. -/
def haveIpAddr (result : ℕ) : Bool := decide (result &&& 0x02≠0)

/-- `have_ip6_addr` of `packet_init`. -/
def haveIp6Addr (result : ℕ) : Bool := decide (result &&& 0x04≠0)

/-- Address of an entry of the interface. -/
def Ifaddrs.addressOn (interface : List Char) (ifa : Ifaddrs) : Option Sockaddr :=
  if ifa.ifaName=interface then ifa.ifaAddr else none

/-- The IPv4 address of an entry. -/
def inet (interface : List Char) (ifa : Ifaddrs) : Option InAddr :=
  (ifa.addressOn interface).bind fun a => if a.saFamily=afInet then some (sinAddr a) else none

/-- The IPv6 address of an entry, if it is neither link-local nor site-local. -/
def inet6 (interface : List Char) (ifa : Ifaddrs) : Option In6Addr :=
  (ifa.addressOn interface).bind fun a =>
    if a.saFamily=afInet6 ∧
        (in6IsAddrLinklocal (sin6Addr a) || in6IsAddrSitelocal (sin6Addr a))=false then
      some (sin6Addr a)
    else none

/-- The addresses found are the first IPv4 address and one of the IPv6 addresses, and only
IPv6 addresses were read as such. -/
structure RightFamilies (interface : List Char) (ifas : List Ifaddrs) (result : ℕ) (s : Found) :
    Prop where
  /-- The flag of the IPv4 address. -/
  have4 : haveIpAddr result=true ↔ ifas.findSome? (inet interface)≠none
  /-- The IPv4 address. -/
  first4 : ∀ a,ifas.findSome? (inet interface)=some a→s.ifIpAddr=a
  /-- The flag of the IPv6 address. -/
  have6 : haveIp6Addr result=true ↔ ifas.filterMap (inet6 interface)≠[]
  /-- The IPv6 address. -/
  one6 : ifas.filterMap (inet6 interface)≠[]→s.ifIp6Addr∈ifas.filterMap (inet6 interface)
  /-- What was read as an IPv6 address. -/
  only6 : ∀ a∈s.readAs6,a.saFamily=afInet6

/-- Every IPv4 address of the interface behind its first one comes after an IPv6 address that is
neither link-local nor site-local. -/
def SecondInetLate (interface : List Char) (ifas : List Ifaddrs) : Prop :=
  ∀ before ifa after,ifas=before++ifa::after→(inet interface ifa).isSome→
    before.findSome? (inet interface)≠none→before.filterMap (inet6 interface)≠[]

/-- The variables after the entries of a list. -/
structure Tracks (interface : List Char) (seen : List Ifaddrs) (s : Found) : Prop where
  /-- The flag and the IPv4 address. -/
  ip : match seen.findSome? (inet interface) with
    | none => s.gotIpAddr=0
    | some a => s.gotIpAddr=2 ∧ s.ifIpAddr=a
  /-- The flag and the IPv6 address. -/
  ip6 : seen.filterMap (inet6 interface)=[] ∧ s.gotIp6Addr=0 ∨
    s.ifIp6Addr∈seen.filterMap (inet6 interface) ∧ s.gotIp6Addr=4
  /-- What was read as an IPv6 address. -/
  only6 : ∀ a∈s.readAs6,a.saFamily=afInet6

variable {interface : List Char} {seen ifas : List Ifaddrs} {ifa : Ifaddrs} {s : Found}

/-- Before the loop no entry was seen and no address was found. -/
theorem tracks_start (ip : InAddr) (ip6 : In6Addr) : Tracks interface [] (.start ip ip6) :=
  ⟨rfl,.inl ⟨rfl,rfl⟩,nofun⟩

/-- One more entry and the first IPv4 address. -/
theorem findSome_snoc : (seen++[ifa]).findSome? (inet interface)=
    (seen.findSome? (inet interface)).or (inet interface ifa) := by
  rw [List.findSome?_append,List.findSome?_singleton]

/-- One more entry and the IPv6 addresses. -/
theorem filterMap_snoc : (seen++[ifa]).filterMap (inet6 interface)=
    seen.filterMap (inet6 interface)++(inet6 interface ifa).toList := by
  rw [List.filterMap_append]
  cases h : inet6 interface ifa <;> simp [h]

/-- What the body of the loop does with an entry. -/
inductive Visited (interface : List Char) (ifa : Ifaddrs) (s : Found) : Found→Prop where
  /-- The entry is skipped. -/
  | skip (h4 : inet interface ifa=none) (h6 : inet6 interface ifa=none) :
      Visited interface ifa s s
  /-- The entry has the first IPv4 address. -/
  | first (x : InAddr) (h4 : inet interface ifa=some x) (h6 : inet6 interface ifa=none)
      (h0 : s.gotIpAddr=0) : Visited interface ifa s {s with gotIpAddr := 2,ifIpAddr := x}
  /-- The entry has another IPv4 address, which is read as an IPv6 address. -/
  | misread (a : Sockaddr) (s' : Found) (h4 : (inet interface ifa).isSome) (h2 : s.gotIpAddr≠0)
      (ha : a.saFamily=afInet) (hs : s'.readAs6=a::s.readAs6) : Visited interface ifa s s'
  /-- The entry has an IPv6 address that is not wanted. -/
  | refuse (a : Sockaddr) (h4 : inet interface ifa=none) (h6 : inet6 interface ifa=none)
      (ha : a.saFamily=afInet6) : Visited interface ifa s {s with readAs6 := a::s.readAs6}
  /-- The entry has an IPv6 address that is wanted. -/
  | take (a : Sockaddr) (x : In6Addr) (h4 : inet interface ifa=none)
      (h6 : inet6 interface ifa=some x) (ha : a.saFamily=afInet6) :
      Visited interface ifa s {s with
        readAs6 := a::s.readAs6
        ifIp6Addr := x
        gotIp6Addr := 4}

/-- The body of the loop does one of these. -/
theorem visit_cases (interface : List Char) (ifa : Ifaddrs) (s : Found) :
    Visited interface ifa s (visit interface ifa s) := by
  unfold visit
  by_cases hname : ifa.ifaName=interface
  swap
  · rw [if_pos hname]
    exact .skip (by simp [inet,Ifaddrs.addressOn,hname]) (by simp [inet6,Ifaddrs.addressOn,hname])
  rw [if_neg (not_not.mpr hname)]
  cases haddr : ifa.ifaAddr with
  | none =>
    exact .skip (by simp [inet,Ifaddrs.addressOn,hname,haddr])
      (by simp [inet6,Ifaddrs.addressOn,hname,haddr])
  | some a =>
    have h4 : inet interface ifa=if a.saFamily=afInet then some (sinAddr a) else none := by
      simp [inet,Ifaddrs.addressOn,hname,haddr]
    have h6 : inet6 interface ifa=if a.saFamily=afInet6 ∧
        (in6IsAddrLinklocal (sin6Addr a) || in6IsAddrSitelocal (sin6Addr a))=false then
          some (sin6Addr a) else none := by
      simp only [inet6,Ifaddrs.addressOn,if_pos hname,haddr,Option.bind_some]
    by_cases hin : a.saFamily=afInet
    · have hin6 : a.saFamily≠afInet6 := by
        rw [hin]
        decide
      rw [if_pos hin] at h4
      rw [if_neg fun h => hin6 h.1] at h6
      dsimp only
      rw [if_neg fun h => h.1 hin]
      by_cases h0 : s.gotIpAddr=0
      · rw [if_pos ⟨hin,h0⟩]
        exact .first _ h4 h6 h0
      · rw [if_neg fun h => h0 h.2]
        refine .misread a _ (by rw [h4]; rfl) h0 hin ?_
        split <;> rfl
    · rw [if_neg hin] at h4
      by_cases hin6 : a.saFamily=afInet6
      · dsimp only
        rw [if_neg fun h => h.2 hin6,if_neg fun h => hin h.1]
        cases hlocal : in6IsAddrLinklocal (sin6Addr a) || in6IsAddrSitelocal (sin6Addr a) with
        | true =>
          rw [if_neg (by simp [hlocal])] at h6
          exact .refuse a h4 h6 hin6
        | false =>
          rw [if_pos ⟨hin6,hlocal⟩] at h6
          exact .take a _ h4 h6 hin6
      · rw [if_neg fun h => hin6 h.1] at h6
        dsimp only
        rw [if_pos ⟨hin,hin6⟩]
        exact .skip h4 h6

/-- The body keeps track if it is not given a second IPv4 address. -/
theorem Tracks.visit (t : Tracks interface seen s)
    (hone : (inet interface ifa).isSome→seen.findSome? (inet interface)=none) :
    Tracks interface (seen++[ifa]) (visit interface ifa s) := by
  have hip := t.ip
  have hip6 := t.ip6
  have hv := visit_cases interface ifa s
  generalize InterfaceAddrs.visit interface ifa s=s' at hv ⊢
  cases hv with
  | skip h4 h6 =>
    refine ⟨?_,?_,t.only6⟩
    · rw [findSome_snoc,h4,Option.or_none]
      exact hip
    · rw [filterMap_snoc,h6,Option.toList_none,List.append_nil]
      exact hip6
  | first x h4 h6 h0 =>
    refine ⟨?_,?_,t.only6⟩
    · rw [findSome_snoc,hone (by rw [h4]; rfl),h4,Option.none_or]
      exact ⟨rfl,rfl⟩
    · rw [filterMap_snoc,h6,Option.toList_none,List.append_nil]
      exact hip6
  | misread a _ h4 h2 ha hs =>
    rw [hone h4] at hip
    exact absurd hip h2
  | refuse a h4 h6 ha =>
    refine ⟨?_,?_,?_⟩
    · rw [findSome_snoc,h4,Option.or_none]
      exact hip
    · rw [filterMap_snoc,h6,Option.toList_none,List.append_nil]
      exact hip6
    · exact List.forall_mem_cons.mpr ⟨ha,t.only6⟩
  | take a x h4 h6 ha =>
    refine ⟨?_,.inr ⟨?_,rfl⟩,?_⟩
    · rw [findSome_snoc,h4,Option.or_none]
      exact hip
    · rw [filterMap_snoc,h6]
      exact List.mem_append_right _ (List.mem_singleton_self x)
    · exact List.forall_mem_cons.mpr ⟨ha,t.only6⟩

/-- The flag of the IPv4 address is set if one was seen. -/
theorem Tracks.gotIp_iff (t : Tracks interface seen s) :
    s.gotIpAddr≠0 ↔ seen.findSome? (inet interface)≠none := by
  have hip := t.ip
  cases hf : seen.findSome? (inet interface) with
  | none =>
    rw [hf] at hip
    simp [hip]
  | some a =>
    rw [hf] at hip
    simp [hip.1]

/-- The flag of the IPv6 address is set if one was seen. -/
theorem Tracks.gotIp6_iff (t : Tracks interface seen s) :
    s.gotIp6Addr≠0 ↔ seen.filterMap (inet6 interface)≠[] := by
  rcases t.ip6 with ⟨hnil,h0⟩|⟨hmem,h4⟩
  · simp [hnil,h0]
  · exact ⟨fun _ => List.ne_nil_of_mem hmem,fun _ => by rw [h4]; decide⟩

/-- After both addresses were found the rest of the list does not matter. -/
theorem Tracks.complete (t : Tracks interface seen s) (h4 : s.gotIpAddr≠0) (h6 : s.gotIp6Addr≠0)
    (rest : List Ifaddrs) : Tracks interface (seen++rest) s := by
  have hip := t.ip
  refine ⟨?_,.inr ?_,t.only6⟩
  · cases hf : seen.findSome? (inet interface) with
    | none => exact absurd hf (t.gotIp_iff.mp h4)
    | some a =>
      rw [hf] at hip
      rw [List.findSome?_append,hf,Option.some_or]
      exact hip
  · rcases t.ip6 with ⟨-,h0⟩|⟨hmem,hgot⟩
    · exact absurd h0 h6
    · rw [List.filterMap_append]
      exact ⟨List.mem_append_left _ hmem,hgot⟩

/-- With one entry more, a second IPv4 address must come behind an IPv6 address. -/
theorem secondInetLate_snoc : SecondInetLate interface (seen++[ifa]) ↔
    SecondInetLate interface seen ∧ ((inet interface ifa).isSome→
      seen.findSome? (inet interface)≠none→seen.filterMap (inet6 interface)≠[]) := by
  constructor
  · intro h
    refine ⟨fun before x after hs => h before x (after++[ifa]) ?_,h seen ifa [] rfl⟩
    rw [hs,List.append_assoc,List.cons_append]
  · rintro ⟨h,hlast⟩ before x after hs
    rcases List.eq_nil_or_concat' after with rfl|⟨after',y,rfl⟩
    · obtain ⟨rfl,hx⟩ := List.append_inj' hs rfl
      cases hx
      exact hlast
    · have hs' : seen++[ifa]=(before++x::after')++[y] := by
        rw [hs,List.append_assoc,List.cons_append]
      exact h before x after' (List.append_inj_left' hs' rfl)

/-- The condition holds for every beginning of the list. -/
theorem SecondInetLate.of_append (h : SecondInetLate interface (seen++ifas)) :
    SecondInetLate interface seen := fun before x after hs =>
  h before x (after++ifas) (by rw [hs,List.append_assoc,List.cons_append])

/-- Behind a wanted IPv6 address the condition asks for nothing. -/
theorem SecondInetLate.extend (h : SecondInetLate interface seen)
    (h6 : seen.filterMap (inet6 interface)≠[]) (rest : List Ifaddrs) :
    SecondInetLate interface (seen++rest) := by
  induction rest using List.reverseRecOn with
  | nil => rwa [List.append_nil]
  | append_singleton rest ifa ih =>
    rw [← List.append_assoc]
    refine secondInetLate_snoc.mpr ⟨ih,fun _ _ hnil => h6 ?_⟩
    rw [List.filterMap_append] at hnil
    exact (List.append_eq_nil_iff.mp hnil).1

/-- The loop keeps track up to the end of a list of this kind. -/
theorem Tracks.loop (t : Tracks interface seen s) (h : SecondInetLate interface (seen++ifas)) :
    Tracks interface (seen++ifas) (getifaddrsLoop interface ifas s) := by
  induction ifas generalizing seen s with
  | nil => rwa [List.append_nil]
  | cons ifa rest ih =>
    rw [getifaddrsLoop]
    by_cases hdone : s.gotIpAddr≠0 ∧ s.gotIp6Addr≠0
    · rw [if_pos hdone]
      exact t.complete hdone.1 hdone.2 _
    · rw [if_neg hdone]
      rw [List.append_cons] at h ⊢
      have hlast := (secondInetLate_snoc.mp h.of_append).2
      refine ih (t.visit fun hinet => ?_) h
      by_contra hsome
      exact hdone ⟨t.gotIp_iff.mpr hsome,t.gotIp6_iff.mpr (hlast hinet hsome)⟩

/-- What was read as an IPv6 address stays in the log. -/
theorem visit_log {a : Sockaddr} (h : a∈s.readAs6) : a∈(visit interface ifa s).readAs6 := by
  have hv := visit_cases interface ifa s
  generalize visit interface ifa s=s' at hv ⊢
  cases hv with
  | skip => exact h
  | first => exact h
  | misread b _ _ _ _ hs =>
    rw [hs]
    exact List.mem_cons_of_mem _ h
  | refuse => exact List.mem_cons_of_mem _ h
  | take => exact List.mem_cons_of_mem _ h

/-- The loop only adds to the log of what it reads as an IPv6 address. -/
theorem loop_log {a : Sockaddr} (ifas : List Ifaddrs) (h : a∈s.readAs6) :
    a∈(getifaddrsLoop interface ifas s).readAs6 := by
  induction ifas generalizing s with
  | nil => exact h
  | cons ifa rest ih =>
    rw [getifaddrsLoop]
    by_cases hdone : s.gotIpAddr≠0 ∧ s.gotIp6Addr≠0
    · rwa [if_pos hdone]
    · rw [if_neg hdone]
      exact ih (visit_log h)

/-- A second IPv4 address that the loop comes to is read as an IPv6 address. -/
theorem visit_misreads (t : Tracks interface seen s) (hinet : (inet interface ifa).isSome)
    (hsome : seen.findSome? (inet interface)≠none) :
    ∃ a∈(visit interface ifa s).readAs6,a.saFamily=afInet := by
  have hgot := t.gotIp_iff.mpr hsome
  have hv := visit_cases interface ifa s
  generalize visit interface ifa s=s' at hv ⊢
  cases hv with
  | skip h4 => simp [h4] at hinet
  | first x h4 h6 h0 => exact absurd h0 hgot
  | misread a _ h4 h2 ha hs => exact ⟨a,by rw [hs]; exact List.mem_cons_self,ha⟩
  | refuse a h4 => simp [h4] at hinet
  | take a x h4 => simp [h4] at hinet

/-- The loop reads an IPv4 address as an IPv6 address in a list of any other kind. -/
theorem Tracks.loop_misreads (t : Tracks interface seen s) (hseen : SecondInetLate interface seen)
    (h : ¬SecondInetLate interface (seen++ifas)) :
    ∃ a∈(getifaddrsLoop interface ifas s).readAs6,a.saFamily=afInet := by
  induction ifas generalizing seen s with
  | nil => exact absurd (by rwa [List.append_nil]) h
  | cons ifa rest ih =>
    rw [getifaddrsLoop]
    by_cases hdone : s.gotIpAddr≠0 ∧ s.gotIp6Addr≠0
    · exact absurd (hseen.extend (t.gotIp6_iff.mp hdone.2) _) h
    · rw [if_neg hdone]
      rw [List.append_cons] at h
      by_cases hnext : SecondInetLate interface (seen++[ifa])
      · refine ih (t.visit fun hinet => ?_) hnext h
        by_contra hsome
        have h6 := (secondInetLate_snoc.mp hnext).2 hinet hsome
        exact hdone ⟨t.gotIp_iff.mpr hsome,t.gotIp6_iff.mpr h6⟩
      · have hmis : (inet interface ifa).isSome ∧ seen.findSome? (inet interface)≠none := by
          by_contra hno
          exact hnext (secondInetLate_snoc.mpr ⟨hseen,fun h4 hsome => absurd ⟨h4,hsome⟩ hno⟩)
        obtain ⟨a,ha,hfam⟩ := visit_misreads t hmis.1 hmis.2
        exact ⟨a,loop_log rest ha,hfam⟩

/-- The flags of the result say whether addresses of either family were found. -/
theorem Tracks.flags (t : Tracks interface seen s) (gotHwAddr : Bool) :
    (haveIpAddr (getAddrsIoctl gotHwAddr s)=true ↔ s.gotIpAddr≠0) ∧
      (haveIp6Addr (getAddrsIoctl gotHwAddr s)=true ↔ s.gotIp6Addr≠0) := by
  have h4 : s.gotIpAddr=0 ∨ s.gotIpAddr=2 := by
    have hip := t.ip
    cases hf : seen.findSome? (inet interface) with
    | none =>
      rw [hf] at hip
      exact .inl hip
    | some a =>
      rw [hf] at hip
      exact .inr hip.1
  have h6 : s.gotIp6Addr=0 ∨ s.gotIp6Addr=4 := t.ip6.imp And.right And.right
  rcases h4 with h4|h4 <;> rcases h6 with h6|h6 <;> cases gotHwAddr <;>
    simp [haveIpAddr,haveIp6Addr,getAddrsIoctl,h4,h6]

/-- What the loop kept track of is what it is meant to find. -/
theorem Tracks.right (t : Tracks interface ifas s) (gotHwAddr : Bool) :
    RightFamilies interface ifas (getAddrsIoctl gotHwAddr s) s where
  have4 := (t.flags gotHwAddr).1.trans t.gotIp_iff
  first4 a ha := by
    have hip := t.ip
    rw [ha] at hip
    exact hip.2
  have6 := (t.flags gotHwAddr).2.trans t.gotIp6_iff
  one6 hne := t.ip6.elim (fun h => absurd h.1 hne) And.left
  only6 := t.only6

/-- The loop picks the addresses from the right families exactly if every IPv4 address of the
interface behind its first one comes after an IPv6 address that is wanted. -/
theorem getifaddrs_right_iff (gotHwAddr : Bool) (interface : List Char) (ifas : List Ifaddrs)
    (ip : InAddr) (ip6 : In6Addr) :
    (let s := getifaddrsLoop interface ifas (.start ip ip6)
    RightFamilies interface ifas (getAddrsIoctl gotHwAddr s) s) ↔
      SecondInetLate interface ifas := by
  have hstart : Tracks interface [] (.start ip ip6) := tracks_start ip ip6
  constructor
  · intro hright
    by_contra hnot
    have hnil : SecondInetLate interface [] := fun before _ _ hs => by simp at hs
    obtain ⟨a,ha,hfam⟩ := hstart.loop_misreads hnil hnot
    have hfam6 := hright.only6 a ha
    rw [hfam] at hfam6
    cases hfam6
  · exact fun h => (hstart.loop h).right gotHwAddr

/-- An interface with two IPv4 addresses and no IPv6 address. -/
def twoAddresses : List Ifaddrs :=
  [⟨['e'],some ⟨afInet,fun _ => 10⟩⟩,⟨['e'],some ⟨afInet,fun i => if i<8 then 11 else 0⟩⟩]

/-- The second address is taken for the unspecified IPv6 address. -/
theorem getifaddrs_misreads :
    let s := getifaddrsLoop ['e'] twoAddresses (.start (fun _ => 0) fun _ => 0)
    haveIp6Addr (getAddrsIoctl true s)=true ∧ twoAddresses.filterMap (inet6 ['e'])=[] ∧
      ¬RightFamilies ['e'] twoAddresses (getAddrsIoctl true s) s := by
  refine ⟨by decide,by decide,fun h => ?_⟩
  exact absurd (h.have6.mp (by decide)) (not_not.mpr (by decide))

end IftopColor.InterfaceAddrs
