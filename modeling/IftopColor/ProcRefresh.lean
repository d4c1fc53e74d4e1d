import IftopColor.IntDirective
import IftopColor.ProcNet

/-!
# The refresh of the process table

`procinfo_refresh` on Linux reads the sockets from `/proc/net`, walks over the directories
of `/proc` and over their file descriptors, and looks up the inodes that the links name.
The published table has an entry for every descriptor whose link names the inode of a
listed socket, in the order of the walk.
-/

namespace IftopColor.ProcRefresh

open TextBuffer AddrHash ProcInfo Scanf GrowingArray ProcTable ProcNet
open ConfigFile (fgets)
open IntDirective (strtol toInt Numeral)

/-- What is read through a path, if that succeeds. -/
structure FileSystem where
  /-- Content of a file. -/
  fopen : List Char→Option (List Char)
  /-- Names in a directory, in the order of `readdir`. -/
  opendir : List Char→Option (List (List Char))
  /-- Target of a link. -/
  readlink : List Char→Option (List Char)

/-- `get_proc_name`, in a buffer of `PROCINFO_NAME_MAX` bytes. -/
def getProcName (fs : FileSystem) (pid : ℤ) : List Char :=
  let path := ("/proc/".toList++signedDecimal pid++"/comm".toList).take 63
  let unnamed := ("pid:".toList++signedDecimal pid).take (procinfoNameMax-1)
  match fs.fopen path with
  | none => unnamed
  | some content =>
    match fgets procinfoNameMax content with
    | none => unnamed
    | some (buf,_) => buf.takeWhile fun c => c≠ '\n'

/-- `fd_path`. -/
def fdPath (pid : ℤ) : List Char := ("/proc/".toList++signedDecimal pid++"/fd".toList).take 63

/-- `link_path`. -/
def linkPath (pid : ℤ) (name : List Char) : List Char := (fdPath pid++ '/'::name).take 127

/-- `"socket:[%lu]"`. -/
def socketFormat : List Directive := "socket:[".toList.map .lit++[.ulong 10,.lit ']']

/-- The body of the inner loop, with the table and `pname` if it is resolved. -/
def visitFd (a : Allocator) (fs : FileSystem) (inodes : Growing InodeEntry) (pid : ℤ)
    (w : Growing SockEntry×Option (List Char)) (name : List Char) :
    Growing SockEntry×Option (List Char) :=
  match fs.readlink (linkPath pid name) with
  | none => w
  | some target =>
    let linkTarget := target.take 127
    if linkTarget=[] then w
    else
      match sscanf socketFormat (cut linkTarget) with
      | [.ulong inode] =>
        match inodeTableFind inodes inode with
        | none => w
        | some ie =>
          let pname := w.2.getD (getProcName fs (toInt pid))
          (tableAdd a w.1 ie.af ie.protocol ie.port ie.addr (toInt pid) pname,some pname)
      | _ => w

/-- The body of the outer loop. -/
def visitDir (a : Allocator) (fs : FileSystem) (inodes : Growing InodeEntry)
    (t : Growing SockEntry) (name : List Char) : Growing SockEntry :=
  let pid := strtol name
  if pid.endptr≠[] ∨ pid.value≤0 then t
  else
    match fs.opendir (fdPath pid.value) with
    | none => t
    | some names => (names.foldl (visitFd a fs inodes pid.value) (t,none)).1

/-- The four calls of `parse_proc_net`. -/
def parseProcNets (a : Allocator) (o : ByteOrder) (fs : FileSystem)
    (u : NetTable→ℕ→Indeterminate) (t : Growing InodeEntry) : Growing InodeEntry :=
  let t := parseProcNet a o (fs.fopen "/proc/net/tcp".toList) .inet 6 (u .tcp) t
  let t := parseProcNet a o (fs.fopen "/proc/net/tcp6".toList) .inet6 6 (u .tcp6) t
  let t := parseProcNet a o (fs.fopen "/proc/net/udp".toList) .inet 17 (u .udp) t
  parseProcNet a o (fs.fopen "/proc/net/udp6".toList) .inet6 17 (u .udp6) t

/-- `procinfo_refresh`. -/
def procinfoRefresh (a : Allocator) (o : ByteOrder) (fs : FileSystem)
    (u : NetTable→ℕ→Indeterminate) (s : ProcState) : ProcState :=
  match tableCreate a with
  | none => {s with stagingTable := none}
  | some t =>
    let s := inodeTableClear {s with stagingTable := some t}
    let s := {s with inodeTable := parseProcNets a o fs u s.inodeTable}
    if s.inodeTable.entries.length=0 then tablePublish s
    else
      match fs.opendir "/proc".toList with
      | none => tablePublish s
      | some names =>
        let t := names.foldl (visitDir a fs s.inodeTable) t
        tablePublish {s with stagingTable := some t}

/-- What a file descriptor links to. -/
inductive LinkTarget where
  /-- A socket. -/
  | socket (n : UInt64)
  /-- Anything else. -/
  | other (text : List Char) (h : ¬"socket:[".toList<+:text)
  /-- No link, as for a directory. -/
  | none

/-- Text of a target. -/
def LinkTarget.text : LinkTarget→Option (List Char)
  | .socket n => some ("socket:[".toList++(decimal n.toNat++[']']))
  | .other text _ => some text
  | .none => Option.none

/-- The inode of a socket. -/
def LinkTarget.inode : LinkTarget→Option UInt64
  | .socket n => some n
  | .other .. | .none => Option.none

/-- A file descriptor. -/
structure Fd where
  /-- The name of the descriptor in the directory. -/
  name : List Char
  /-- What it links to. -/
  target : LinkTarget
  /-- Names of descriptors are short. -/
  short : name.length≤107

/-- A process. -/
structure Process where
  /-- The number of the process. -/
  pid : ℕ
  /-- The file descriptors of the process. -/
  fds : List Fd
  /-- Numbers are positive. -/
  pid_pos : 0<pid
  /-- Numbers fit a `pid_t`. -/
  pid_lt : pid<2^31

/-- An entry of `/proc`. -/
inductive DirEntry where
  /-- The directory of a process. -/
  | process (p : Process)
  /-- Something that is not named by a number. -/
  | other (name : List Char) (h : ∀ n,¬Numeral name n)

/-- Name of an entry. -/
def DirEntry.name : DirEntry→List Char
  | .process p => decimal p.pid
  | .other name _ => name

/-- A path below the directory of a process. -/
def Process.path (p : Process) (below : List Char) : List Char :=
  "/proc/".toList++decimal p.pid++below

/-- Sockets and entries of `/proc` as the kernel shows them. -/
structure Shows (o : ByteOrder) (fs : FileSystem) (sockets : List NetSocket)
    (dirs : List DirEntry) : Prop where
  /-- Each file under `/proc/net` has a header and the rows of its sockets. -/
  net : ∀ table,∃ header,(∀ c∈header,ConfigFile.isText c=true) ∧ header.length<512 ∧
    fs.fopen table.path=some (netFile o header (socketsOf table sockets))
  /-- Rows are short. -/
  short : ∀ s∈sockets,(s.row o).length<512
  /-- No two sockets have the same inode. -/
  distinct : (sockets.filterMap NetSocket.inode).Nodup
  /-- Entries of `/proc`. -/
  proc : fs.opendir "/proc".toList=some (dirs.map DirEntry.name)
  /-- File descriptors of a process. -/
  fds : ∀ p,.process p∈dirs→fs.opendir (p.path "/fd".toList)=some (p.fds.map Fd.name)
  /-- What they link to. -/
  links : ∀ p,.process p∈dirs→∀ fd∈p.fds,
    fs.readlink (p.path ("/fd/".toList++fd.name))=fd.target.text

/-- The entry for a socket of a process. -/
def ownedEntry (pid : ℤ) (name : List Char) (s : NetSocket) : SockEntry :=
  sockEntry s.table.af s.table.protocol s.localPort s.localAddr pid name

/-- The entry for a descriptor, if it links to a listed socket. -/
def Process.owned (sockets : List NetSocket) (name : List Char) (p : Process) (fd : Fd) :
    Option SockEntry :=
  (fd.target.inode.bind fun n => sockets.find? fun s => s.HasInode n).map (ownedEntry p.pid name)

/-- Entries of a process, in the order of its descriptors. -/
def Process.entries (sockets : List NetSocket) (name : List Char) (p : Process) :
    List SockEntry :=
  p.fds.filterMap (p.owned sockets name)

/-- Entries for an entry of `/proc`. -/
def DirEntry.entries (fs : FileSystem) (sockets : List NetSocket) : DirEntry→List SockEntry
  | .process p => p.entries sockets (getProcName fs p.pid)
  | .other .. => []

/-- Entries of all processes, in the order of their directories. -/
def ownedEntries (fs : FileSystem) (sockets : List NetSocket) (dirs : List DirEntry) :
    List SockEntry := dirs.flatMap (DirEntry.entries fs sockets)

variable {a : Allocator} {o : ByteOrder} {fs : FileSystem} {inodes : Growing InodeEntry}
  {sockets : List NetSocket} {dirs : List DirEntry} {name : List Char}

/-- A number with its sign, of a number that is not negative. -/
theorem signedDecimal_natCast (n : ℕ) : signedDecimal n=decimal n := by
  rw [signedDecimal,if_neg (Int.not_lt.mpr (Int.natCast_nonneg n)),Int.natAbs_natCast]

/-- The number of a process has ten digits. -/
theorem Process.length_decimal (p : Process) : (decimal p.pid).length≤10 :=
  (Nat.length_toDigits_le_iff (by decide) (by decide)).mpr (p.pid_lt.trans (by decide))

/-- A path below the directory of a process is not much longer than its end. -/
theorem Process.length_path (p : Process) (below : List Char) :
    (p.path below).length≤16+below.length := by
  have hlen := p.length_decimal
  have hproc : "/proc/".toList.length=6 := rfl
  unfold Process.path
  rw [List.length_append,List.length_append,hproc]
  omega

/-- The path of the file descriptors fits its buffer. -/
theorem Process.fdPath_eq (p : Process) : fdPath p.pid=p.path "/fd".toList := by
  have hlen := p.length_path "/fd".toList
  have hfd : "/fd".toList.length=3 := rfl
  unfold fdPath
  rw [signedDecimal_natCast]
  exact List.take_of_length_le (hlen.trans (by rw [hfd]; decide))

/-- The path of a file descriptor fits its buffer. -/
theorem Process.linkPath_eq (p : Process) (fd : Fd) :
    linkPath p.pid fd.name=p.path ("/fd/".toList++fd.name) := by
  have hlen := p.length_path ("/fd/".toList++fd.name)
  have hfd : "/fd/".toList.length=4 := rfl
  have hshort := fd.short
  have hpath : fdPath p.pid++ '/'::fd.name=p.path ("/fd/".toList++fd.name) := by
    rw [p.fdPath_eq]
    unfold Process.path
    rw [List.append_assoc]
    rfl
  rw [List.length_append,hfd] at hlen
  unfold linkPath
  rw [hpath,List.take_of_length_le (by omega)]

/-- `strtol` on the name of a process. -/
theorem Process.strtol_decimal (p : Process) : strtol (decimal p.pid)=⟨p.pid,[],false⟩ := by
  have hdigits : ∀ c∈decimal p.pid,c.isDigit=true := fun c hc =>
    Nat.isDigit_of_mem_toDigits (by decide) (by decide) hc
  have hvalue : NetFilter.digitsValue (decimal p.pid)=p.pid := Nat.ofDigitChars_ten_toDigits
  have hnum : Numeral (decimal p.pid) p.pid :=
    ⟨[],decimal p.pid,by simp,Nat.toDigits_ne_nil,hdigits,.inl ⟨.inl rfl,by rw [hvalue]⟩⟩
  have hlt := p.pid_lt
  exact IntDirective.strtol_long hnum (IntDirective.FitsInt.long ⟨by omega,by omega⟩)

/-- A name that is no number is skipped. -/
theorem visitDir_other (h : ∀ n,¬Numeral name n) (t : Growing SockEntry) :
    visitDir a fs inodes t name=t := by
  have hskip : (strtol name).endptr≠[] ∨ (strtol name).value≤0 := by
    by_cases hname : name=[]
    · rw [hname]
      exact .inr (by decide)
    · refine .inl fun hend => ?_
      obtain ⟨n,hn⟩ := IntDirective.numeral_of_endptr hname hend
      exact h n hn
  exact if_pos hskip

/-- The inode that a link names, as it is read. -/
theorem LinkTarget.read (target : LinkTarget) {text : List Char} (h : target.text=some text) :
    sscanf socketFormat (cut (text.take 127))=target.inode.elim [] fun n => [.ulong n] := by
  cases target with
  | socket n =>
    simp only [LinkTarget.text,Option.some.injEq] at h
    subst h
    have hdigits := digits_decimal n.toNat
    have hlen : (decimal n.toNat).length≤20 :=
      (Nat.length_toDigits_le_iff (by decide) (by decide)).mpr (n.toNat_lt.trans (by decide))
    have htake : ("socket:[".toList++(decimal n.toNat++[']'])).take 127=
        "socket:[".toList++(decimal n.toNat++[']']) := by
      have hsocket : "socket:[".toList.length=8 := rfl
      refine List.take_of_length_le ?_
      rw [List.length_append,List.length_append,hsocket,List.length_singleton]
      omega
    have hclean : ∀ c∈"socket:[".toList++(decimal n.toNat++[']']),c≠nul := by
      intro c hc hnul
      rcases List.mem_append.mp hc with hc|hc
      · revert hc
        rw [hnul]
        decide
      rcases List.mem_append.mp hc with hc|hc
      · have hdigit := hdigits.digits c hc
        revert hdigit
        rw [hnul]
        decide
      · rw [List.mem_singleton.mp hc] at hnul
        revert hnul
        decide
    have hread := (hdigits.ulong (stops_cons [] (c:= ']') (by decide))) [.lit ']']
    unfold socketFormat
    rw [htake,cut_of_clean hclean,sscanf_lits]
    refine (if_pos (List.prefix_append _ _)).trans ?_
    rw [List.drop_left]
    exact hread
  | other text' hother =>
    simp only [LinkTarget.text,Option.some.injEq] at h
    subst h
    have hprefix : ¬"socket:[".toList<+:cut (text'.take 127) := fun hp =>
      hother (hp.trans ((List.takeWhile_prefix _).trans (List.take_prefix 127 text')))
    unfold socketFormat
    rw [sscanf_lits]
    exact (if_neg hprefix).trans rfl
  | none => cases h

/-- The entry that a table with all sockets has for an inode, and the socket that it is for. -/
theorem entry_of_find {n : UInt64} {s : NetSocket}
    (h : sockets.find? (fun s => s.HasInode n)=some s) :
    s.entry=some ⟨n,s.table.af,s.table.protocol,s.localPort,unionAddr s.table.af s.localAddr⟩ := by
  have hhas := List.find?_some h
  have hinode : s.inode.map Subtype.val=some n := of_decide_eq_true hhas
  obtain ⟨m,hm,rfl⟩ := Option.map_eq_some_iff.mp hinode
  rw [NetSocket.entry,hm]
  rfl

/-- The number of a process fits an `int`. -/
theorem Process.toInt_pid (p : Process) : toInt p.pid=p.pid := by
  have hlt := p.pid_lt
  exact IntDirective.FitsInt.toInt_eq ⟨by omega,by omega⟩

/-- A descriptor gets its entry, and the name of the process is the same each time. -/
theorem visitFd_eq {p : Process} {fd : Fd} {w : Growing SockEntry×Option (List Char)}
    (hlink : fs.readlink (p.path ("/fd/".toList++fd.name))=fd.target.text)
    (hdistinct : (sockets.filterMap NetSocket.inode).Nodup)
    (hinodes : inodes.entries=inodeEntries sockets)
    (hname : w.2.getD (getProcName fs p.pid)=getProcName fs p.pid) :
    visitFd a fs inodes p.pid w fd.name=
      (p.owned sockets (getProcName fs p.pid) fd).elim w fun e =>
        (w.1.append a sockLayout e,some (getProcName fs p.pid)) := by
  have hskip (h : fd.target.inode=none) : (p.owned sockets (getProcName fs p.pid) fd)=none := by
    rw [Process.owned,h]
    rfl
  unfold visitFd
  rw [p.linkPath_eq,hlink]
  cases htext : fd.target.text with
  | none =>
    have hnone : fd.target.inode=none := by
      cases htarget : fd.target with
      | none => rfl
      | socket n => rw [htarget] at htext; cases htext
      | other text h => rfl
    rw [hskip hnone]
    rfl
  | some text =>
    have hread := fd.target.read htext
    dsimp only
    by_cases hempty : text.take 127=[]
    · have hnone : fd.target.inode=none := by
        rw [hempty] at hread
        cases hinode : fd.target.inode with
        | none => rfl
        | some n => rw [hinode] at hread; cases hread
      rw [if_pos hempty,hskip hnone]
      rfl
    rw [if_neg hempty,hread]
    cases hinode : fd.target.inode with
    | none =>
      rw [hskip hinode]
      rfl
    | some n =>
      have hfind := inodeTableFind_eq hdistinct hinodes n
      dsimp only [Option.elim_some]
      rw [hfind,Process.owned,hinode,Option.bind_some]
      cases hsocket : sockets.find? fun s => s.HasInode n with
      | none => rfl
      | some s =>
        rw [Option.bind_some,entry_of_find hsocket]
        dsimp only [Option.map_some,Option.elim_some]
        rw [p.toInt_pid,hname,tableAdd,sockEntry,unionAddr_unionAddr]
        rfl

/-- The inner loop adds the entries of a process. -/
theorem visitFds_eq {p : Process}
    (hlink : ∀ fd∈p.fds,fs.readlink (p.path ("/fd/".toList++fd.name))=fd.target.text)
    (hdistinct : (sockets.filterMap NetSocket.inode).Nodup)
    (hinodes : inodes.entries=inodeEntries sockets) (t : Growing SockEntry) :
    ((p.fds.map Fd.name).foldl (visitFd a fs inodes p.pid) (t,none)).1=
      (p.entries sockets (getProcName fs p.pid)).foldl (Growing.append a sockLayout) t := by
  have hall (fds : List Fd) (hfds : ∀ fd∈fds,fd∈p.fds)
      (w : Growing SockEntry×Option (List Char))
      (hname : w.2.getD (getProcName fs p.pid)=getProcName fs p.pid) :
      ((fds.map Fd.name).foldl (visitFd a fs inodes p.pid) w).1=
        (fds.filterMap (p.owned sockets (getProcName fs p.pid))).foldl
          (Growing.append a sockLayout) w.1 := by
    induction fds generalizing w with
    | nil => rfl
    | cons fd fds ih =>
      obtain ⟨hfd,hrest⟩ := List.forall_mem_cons.mp hfds
      rw [List.map_cons,List.foldl_cons,visitFd_eq (hlink fd hfd) hdistinct hinodes hname]
      cases howned : p.owned sockets (getProcName fs p.pid) fd with
      | none =>
        rw [List.filterMap_cons_none howned]
        exact ih hrest w hname
      | some e =>
        rw [List.filterMap_cons_some howned]
        exact ih hrest _ rfl
  exact hall p.fds (fun _ h => h) (t,none) rfl

/-- The directory of a process adds its entries. -/
theorem visitDir_process (h : Shows o fs sockets dirs) {p : Process} (hp : .process p∈dirs)
    (hinodes : inodes.entries=inodeEntries sockets) (t : Growing SockEntry) :
    visitDir a fs inodes t (decimal p.pid)=
      (p.entries sockets (getProcName fs p.pid)).foldl (Growing.append a sockLayout) t := by
  have hpos := p.pid_pos
  have hnot : ¬(([] : List Char)≠[] ∨ (p.pid : ℤ)≤0) := by
    rintro (h|h)
    · exact h rfl
    · omega
  simp only [visitDir,p.strtol_decimal]
  rw [if_neg hnot,p.fdPath_eq,h.fds p hp]
  exact visitFds_eq (h.links p hp) h.distinct hinodes t

/-- The outer loop adds the entries of all processes. -/
theorem visitDirs_eq (h : Shows o fs sockets dirs)
    (hinodes : inodes.entries=inodeEntries sockets) (t : Growing SockEntry) :
    (dirs.map DirEntry.name).foldl (visitDir a fs inodes) t=
      (ownedEntries fs sockets dirs).foldl (Growing.append a sockLayout) t := by
  have hall (l : List DirEntry) (hl : ∀ d∈l,d∈dirs) (t : Growing SockEntry) :
      (l.map DirEntry.name).foldl (visitDir a fs inodes) t=
        (ownedEntries fs sockets l).foldl (Growing.append a sockLayout) t := by
    induction l generalizing t with
    | nil => rfl
    | cons d l ih =>
      obtain ⟨hd,hrest⟩ := List.forall_mem_cons.mp hl
      rw [List.map_cons,List.foldl_cons,ih hrest]
      unfold ownedEntries
      rw [List.flatMap_cons,List.foldl_append]
      cases d with
      | process p => rw [DirEntry.name,visitDir_process h hd hinodes,DirEntry.entries]
      | other name hname =>
        rw [DirEntry.name,visitDir_other hname]
        rfl
  exact hall dirs (fun _ h => h) t

/-- The four files fill the inode table with all sockets that have an inode. -/
theorem parseProcNets_eq (h : Shows o fs sockets dirs) (u : NetTable→ℕ→Indeterminate)
    (t : Growing InodeEntry) :
    parseProcNets a o fs u t=
      (inodeEntries sockets).foldl (Growing.append a inodeLayout) t := by
  have htable (table : NetTable) (t : Growing InodeEntry) :
      parseProcNet a o (fs.fopen table.path) table.af table.protocol (u table) t=
        ((socketsOf table sockets).filterMap NetSocket.entry).foldl
          (Growing.append a inodeLayout) t := by
    obtain ⟨header,htext,hshort,hfile⟩ := h.net table
    rw [hfile]
    exact parseProcNet_netFile htext hshort
      (fun s hs => of_decide_eq_true (List.mem_filter.mp hs).2)
      (fun s hs => h.short s (List.mem_filter.mp hs).1) _ _
  have hentries : inodeEntries sockets=
      (socketsOf .tcp sockets).filterMap NetSocket.entry++
        ((socketsOf .tcp6 sockets).filterMap NetSocket.entry++
          ((socketsOf .udp sockets).filterMap NetSocket.entry++
            (socketsOf .udp6 sockets).filterMap NetSocket.entry)) := by
    simp [inodeEntries,netTables]
  rw [hentries,List.foldl_append,List.foldl_append,List.foldl_append,
    ←htable .tcp,←htable .tcp6,←htable .udp,←htable .udp6]
  rfl

/-- Without inodes, an empty table is published. -/
theorem procinfoRefresh_empty {s : ProcState} {u : NetTable→ℕ→Indeterminate}
    (hcreate : a.grants sizeofSockTable=true)
    (h : (parseProcNets a o fs u s.inodeTable.clear).entries.length=0) :
    (procinfoRefresh a o fs u s).liveTable=some .empty := by
  have htable : tableCreate a=some .empty := if_pos hcreate
  unfold procinfoRefresh
  rw [htable]
  exact congrArg ProcState.liveTable (if_pos h)

/-- Otherwise the table of the walk is published. -/
theorem procinfoRefresh_walk {s : ProcState} {u : NetTable→ℕ→Indeterminate}
    {names : List (List Char)} (hcreate : a.grants sizeofSockTable=true)
    (h : (parseProcNets a o fs u s.inodeTable.clear).entries.length≠0)
    (hproc : fs.opendir "/proc".toList=some names) :
    (procinfoRefresh a o fs u s).liveTable=
      some (names.foldl (visitDir a fs (parseProcNets a o fs u s.inodeTable.clear)) .empty) := by
  have htable : tableCreate a=some .empty := if_pos hcreate
  unfold procinfoRefresh
  rw [htable]
  refine (congrArg ProcState.liveTable (if_neg h)).trans ?_
  rw [hproc]
  rfl

/-- Without inodes, there are no entries. -/
theorem ownedEntries_eq_nil (hdistinct : (sockets.filterMap NetSocket.inode).Nodup)
    (hinodes : inodeEntries sockets=[]) (dirs : List DirEntry) :
    ownedEntries fs sockets dirs=[] := by
  have hfind (n : UInt64) : (sockets.find? fun s => s.HasInode n)=none := by
    have hnone := inodeTableFind_eq (t:=.empty) hdistinct hinodes.symm n
    cases hsocket : sockets.find? fun s => s.HasInode n with
    | none => rfl
    | some s =>
      rw [hsocket,Option.bind_some,entry_of_find hsocket] at hnone
      cases hnone
  refine List.flatMap_eq_nil_iff.mpr fun d _ => ?_
  cases d with
  | process p =>
    refine List.filterMap_eq_nil_iff.mpr fun fd _ => ?_
    rw [Process.owned]
    cases fd.target.inode with
    | none => rfl
    | some n => rw [Option.bind_some,hfind,Option.map_none]
  | other name hname => rfl

/-- The published table has exactly one entry for every file descriptor that links to a listed
socket, in the order of directories and descriptors, whatever was there before. -/
theorem procinfo_refresh_reflects (s : ProcState) (u : NetTable→ℕ→Indeterminate)
    (h : Shows o fs sockets dirs) (hcreate : a.grants sizeofSockTable=true)
    (hinodes : s.inodeTable.clear.Affords a inodeLayout (inodeEntries sockets))
    (hentries : Growing.empty.Affords a sockLayout (ownedEntries fs sockets dirs)) :
    ∃ t,(procinfoRefresh a o fs u s).liveTable=some t ∧
      t.entries=ownedEntries fs sockets dirs := by
  have hlisted : (parseProcNets a o fs u s.inodeTable.clear).entries=inodeEntries sockets := by
    rw [parseProcNets_eq h,hinodes.entries_foldl]
    rfl
  by_cases hempty : (parseProcNets a o fs u s.inodeTable.clear).entries.length=0
  · have hnil := List.eq_nil_of_length_eq_zero hempty
    refine ⟨_,procinfoRefresh_empty hcreate hempty,?_⟩
    rw [ownedEntries_eq_nil h.distinct (hlisted.symm.trans hnil)]
    rfl
  · refine ⟨_,procinfoRefresh_walk hcreate hempty h.proc,?_⟩
    rw [visitDirs_eq h hlisted,hentries.entries_foldl]
    rfl

/-- A listening socket on `::1`, port 80, with inode 7. -/
def listener : NetSocket :=
  ⟨.tcp6,0,fun j => if j.val=15 then 1 else 0,80,fun _ => 0,0,10,0,0,0,0,0,1000,0,some ⟨7,by decide⟩,
    " 1 0000000000000000 100 0 0 10 0".toList,List.all_eq_true.mp rfl,
    fun _ hc => (Option.some.inj hc).symm⟩

/-- The header of the files. -/
def header : List Char :=
  ("  sl  local_address rem_address   st tx_queue rx_queue tr tm->when retrnsmt"++
    "   uid  timeout inode").toList

/-- A process with the socket as its descriptor 3. -/
def server : Process :=
  ⟨42,[⟨".".toList,.none,by decide⟩,⟨"0".toList,.other "/dev/null".toList (by decide),by decide⟩,
    ⟨"3".toList,.socket 7,by decide⟩,⟨"4".toList,.socket 8,by decide⟩],by decide,by decide⟩

/-- Files with the socket and the process. -/
def serverFiles : FileSystem where
  fopen path :=
    if path=NetTable.tcp6.path then some (netFile .little header [listener])
    else if path∈netTables.map NetTable.path then some (netFile .little header [])
    else if path="/proc/42/comm".toList then some "httpd\n".toList
    else none
  opendir path :=
    if path="/proc".toList then some [".".toList,"42".toList,"self".toList]
    else if path="/proc/42/fd".toList then some [".".toList,"0".toList,"3".toList,"4".toList]
    else none
  readlink path :=
    if path="/proc/42/fd/0".toList then some "/dev/null".toList
    else if path="/proc/42/fd/3".toList then some "socket:[7]".toList
    else if path="/proc/42/fd/4".toList then some "socket:[8]".toList
    else none

/-- What `strtol` does not convert up to its end is no number. -/
theorem not_numeral (h : (strtol name).endptr≠[]) (n : ℤ) : ¬Numeral name n := by
  intro hn
  rw [IntDirective.strtol_numeral hn] at h
  split_ifs at h <;> exact h rfl

/-- Entries of `/proc`. -/
def serverDirs : List DirEntry :=
  [.other ".".toList (not_numeral (by decide)),.process server,
    .other "self".toList (not_numeral (by decide))]

set_option maxRecDepth 4000 in
/-- The files show the socket and the process. -/
theorem serverFiles_shows : Shows .little serverFiles [listener] serverDirs where
  net table := by
    refine ⟨header,List.all_eq_true.mp rfl,by decide,?_⟩
    cases table <;> rfl
  short := by
    intro s hs
    rw [List.mem_singleton.mp hs]
    decide
  distinct := List.nodup_singleton _
  proc := rfl
  fds := by
    intro p hp
    have hserver : p=server := by simpa [serverDirs] using hp
    rw [hserver]
    rfl
  links := by
    intro p hp
    have hserver : p=server := by simpa [serverDirs] using hp
    rw [hserver]
    refine List.forall_mem_cons.mpr ⟨rfl,List.forall_mem_cons.mpr ⟨rfl,
      List.forall_mem_cons.mpr ⟨rfl,List.forall_mem_cons.mpr ⟨rfl,?_⟩⟩⟩⟩
    exact fun fd hfd => absurd hfd List.not_mem_nil

/-- The entry of the process, and nothing for the socket that is not listed. -/
theorem procinfo_refresh_reflects_server :
    ∃ t,(procinfoRefresh .ample .little serverFiles (fun _ _ => ⟨[],fun _ => 0⟩)
        initState).liveTable=some t ∧
      t.entries=[⟨.inet6,6,80,listener.localAddr,42,"httpd".toList⟩] :=
  procinfo_refresh_reflects initState _ serverFiles_shows (by decide) ⟨by decide,trivial⟩
    ⟨by decide,trivial⟩

end IftopColor.ProcRefresh
