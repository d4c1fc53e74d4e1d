import IftopColor.AddrHash

/-!
# Looking up the process that owns a socket

The live socket table is a list of entries, scanned from its start; the first
entry that matches decides. An entry matches on protocol and port, and then on
its address, on the unspecified address of the same family, or as an
IPv4-mapped IPv6 address. A flow is attributed by its first endpoint, and by
its second one when the first finds nothing.
-/

namespace IftopColor.ProcInfo

open NetBytes AddrHash

/-- `PROCINFO_NAME_MAX`. -/
def procinfoNameMax : ℕ := 64

/-- `sock_entry`: a local socket and its owner. -/
structure SockEntry where
  /-- Address family of the socket. -/
  af : AddressFamily
  /-- Transport protocol number. -/
  protocol : UInt16
  /-- Local port, host order. -/
  port : UInt16
  /-- Union of `v4` and `v6`. -/
  addr : In6Addr
  /-- Owning process. -/
  pid : ℤ
  /-- Process name without its terminator. -/
  name : List Char

/-- `proc_entry`. -/
structure ProcEntry where
  /-- Process id. -/
  pid : ℤ
  /-- Process name without its terminator. -/
  name : List Char

/-- The first twelve bytes of an IPv4-mapped IPv6 address. -/
def v4mappedPrefix : Bytes 12 := fun j => if j.val<10 then 0 else 0xff

/-- Bytes 12 to 15 of an IPv6 address. -/
def in6Tail (a : In6Addr) : InAddr := fun j => a ⟨12+j,by omega⟩

/-- Bytes 0 to 11 of an IPv6 address. -/
def in6Head (a : In6Addr) : Bytes 12 := fun j => a ⟨j,by omega⟩

/-- The conditions under which `table_find` returns an entry. -/
def entryMatches (e : SockEntry) (af : AddressFamily) (addr : In6Addr) (port protocol : UInt16) :
    Bool :=
  if e.port≠port ∨ e.protocol≠protocol then false
  else if e.af=af ∧ af=.inet ∧ (inOfIn6 e.addr=inOfIn6 addr ∨ sAddr (inOfIn6 e.addr)=0) then true
  else if e.af=af ∧ af=.inet6 ∧ (e.addr=addr ∨ e.addr=fun _ => 0) then true
  else decide (af=.inet ∧ e.af=.inet6 ∧ in6Head e.addr=v4mappedPrefix ∧
    in6Tail e.addr=inOfIn6 addr)

/-- `table_find`: the first matching entry. -/
def tableFind (t : List SockEntry) (af : AddressFamily) (addr : In6Addr)
    (port protocol : UInt16) : Option ProcEntry :=
  (t.find? fun e => entryMatches e af addr port protocol).map fun e => ⟨e.pid,e.name⟩

/-- `procinfo_lookup` on the table that is live; a null table is empty. -/
def procinfoLookup (liveTable : List SockEntry) (af : AddressFamily) (addr : In6Addr)
    (port protocol : UInt16) : Option ProcEntry :=
  tableFind liveTable af addr port protocol

/-- The lookups made for a flow, in `handle_ip_packet` and in `analyse_data`:
the first endpoint, then the second; none for another family. -/
def lookupFlow (liveTable : List SockEntry) (ap : AddrPair) : Option ProcEntry :=
  match ap.addressFamily with
  | .inet =>
    (procinfoLookup liveTable .inet ap.src6 ap.srcPort ap.protocol).or
      (procinfoLookup liveTable .inet ap.dst6 ap.dstPort ap.protocol)
  | .inet6 =>
    (procinfoLookup liveTable .inet6 ap.src6 ap.srcPort ap.protocol).or
      (procinfoLookup liveTable .inet6 ap.dst6 ap.dstPort ap.protocol)
  | .unspec => none

end IftopColor.ProcInfo
