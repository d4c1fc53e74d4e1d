import IftopColor.GrowingArray
import IftopColor.ProcInfo

/-!
# The tables that a refresh builds

`sock_table_t` and the side table of inodes are arrays that double. A refresh fills a
staging table, which then becomes the live one. On Linux it is filled by way of the
inode table, which keeps its block from one refresh to the next.
-/

namespace IftopColor.ProcTable

open AddrHash ProcInfo GrowingArray

/-- `sock_table_t`: the array starts with 512 elements of `sizeof(sock_entry)` bytes. -/
def sockLayout : Layout := ⟨512,92,by decide,by decide,by decide,by decide⟩

/-- The array of `inode_entry`. -/
def inodeLayout : Layout := ⟨1024,32,by decide,by decide,by decide,by decide⟩

/-- `sizeof(sock_table_t)`. -/
def sizeofSockTable : ℕ := 16

/-- A union of addresses after an address of some family was copied into it. The bytes that are
not written are never read; they are zero here. -/
def unionAddr (af : AddressFamily) (addr : In6Addr) : In6Addr :=
  if af=.inet then in6OfIn (inOfIn6 addr) else addr

/-- Of an IPv4 address, only its four bytes are copied. -/
theorem unionAddr_inet (addr : In6Addr) : unionAddr .inet addr=in6OfIn (inOfIn6 addr) := if_pos rfl

/-- A union that was copied into another one. -/
theorem unionAddr_unionAddr (af : AddressFamily) (addr : In6Addr) :
    unionAddr af (unionAddr af addr)=unionAddr af addr := by
  unfold unionAddr
  split
  · rw [inOfIn6_in6OfIn]
  · rfl

/-- The entry that `table_add` makes of its arguments. -/
def sockEntry (af : AddressFamily) (protocol port : UInt16) (addr : In6Addr) (pid : ℤ)
    (name : List Char) : SockEntry :=
  ⟨af,protocol,port,unionAddr af addr,pid,name.take (procinfoNameMax-1)⟩

/-- `table_add`. -/
def tableAdd (a : Allocator) (t : Growing SockEntry) (af : AddressFamily) (protocol port : UInt16)
    (addr : In6Addr) (pid : ℤ) (name : List Char) : Growing SockEntry :=
  t.append a sockLayout (sockEntry af protocol port addr pid name)

/-- `inode_entry`. -/
structure InodeEntry where
  /-- Inode of the socket. -/
  inode : UInt64
  /-- Address family of the socket. -/
  af : AddressFamily
  /-- Transport protocol number. -/
  protocol : UInt16
  /-- Local port, host order. -/
  port : UInt16
  /-- Union of `v4` and `v6`. -/
  addr : In6Addr

/-- `inode_table_add`. -/
def inodeTableAdd (a : Allocator) (t : Growing InodeEntry) (inode : UInt64) (af : AddressFamily)
    (protocol port : UInt16) (addr : In6Addr) : Growing InodeEntry :=
  t.append a inodeLayout ⟨inode,af,protocol,port,unionAddr af addr⟩

/-- `inode_table_find`. -/
def inodeTableFind (t : Growing InodeEntry) (inode : UInt64) : Option InodeEntry :=
  t.entries.find? fun e => e.inode=inode

/-- The static variables of `procinfo.c`. -/
structure ProcState where
  /-- `live_table`. -/
  liveTable : Option (Growing SockEntry)
  /-- `staging_table`. -/
  stagingTable : Option (Growing SockEntry)
  /-- `inode_table` with `inode_count` and `inode_cap`. -/
  inodeTable : Growing InodeEntry

/-- Nothing is there at first. -/
def initState : ProcState := ⟨none,none,.empty⟩

/-- `table_create`. -/
def tableCreate (a : Allocator) : Option (Growing SockEntry) :=
  if a.grants sizeofSockTable then some .empty else none

/-- `inode_table_clear`. -/
def inodeTableClear (s : ProcState) : ProcState := {s with inodeTable := s.inodeTable.clear}

/-- `table_publish`. The old table is freed. -/
def tablePublish (s : ProcState) : ProcState :=
  {s with liveTable := s.stagingTable,stagingTable := none}

end IftopColor.ProcTable
