import IftopColor.ConfigFile
import IftopColor.ProcTable
import IftopColor.Scanf
import Mathlib.Data.List.Find
import Mathlib.Data.List.Pairwise

/-!
# The sockets that `/proc/net` lists

`parse_proc_net` reads one of four files, a line at a time. The kernel prints addresses as
words of the host and leaves a zero for an inode that a socket does not have. A row is read
back as the entry of its socket, and the four files together fill the inode table with all
sockets that have an inode.
-/

namespace IftopColor.ProcNet

open NetBytes AddrHash Scanf GrowingArray ProcTable
open ConfigFile (fgets upToNewline isText)

/-- How the host keeps a word in memory. -/
structure ByteOrder where
  /-- The word that is read from four bytes. -/
  toWord : Bytes 4→UInt32
  /-- The bytes that a word is written to. -/
  toBytes : UInt32→Bytes 4
  /-- What was read is written back. -/
  toBytes_toWord : ∀ b,toBytes (toWord b)=b

/-- A little-endian host writes back the word it read. -/
theorem littleBytes_sAddr (b : Bytes 4) :
    (fun j : Fin 4 => UInt8.ofNat ((sAddr b).toNat/256^(j : ℕ)))=b := by
  have hb (j : Fin 4) := (b j).toNat_lt
  have h0 := hb 0; have h1 := hb 1; have h2 := hb 2; have h3 := hb 3
  funext j
  apply UInt8.toNat_inj.mp
  rw [sAddr,hostWord,UInt32.toNat_ofNat',UInt8.toNat_ofNat']
  fin_cases j <;> simp only [Fin.zero_eta,Fin.mk_one,Fin.reduceFinMk] <;> norm_num <;> omega

/-- A little-endian host. -/
def ByteOrder.little : ByteOrder where
  toWord := sAddr
  toBytes w := fun j => UInt8.ofNat (w.toNat/256^(j : ℕ))
  toBytes_toWord := littleBytes_sAddr

/-- The lines that `fgets` reads from a file. Every round but the last one takes a
character, so that there are enough of them if there are as many as characters. -/
def fgetsAll (n : ℕ) : ℕ→List Char→List (List Char)
  | 0,_ => []
  | fuel+1,input =>
    match fgets n input with
    | none => []
    | some (line,rest) => line::fgetsAll n fuel rest

/-- What the variables hold that `parse_proc_net` has not written. -/
structure Indeterminate where
  /-- `local_addr_str`. -/
  localAddrStr : List Char
  /-- `word`, in each round. -/
  word : Fin 4→UInt32

/-- `[0-9A-Fa-f]`. -/
def isHexDigit (c : Char) : Bool := digitValue c<16

/-- `" %x %*x:%*x %*x:%*x %*x %*u %*d %lu"`, the end of both formats. -/
def formatEnd : List Directive :=
  [.space,.uint 16,.space,.skip 16,.lit ':',.skip 16,.space,.skip 16,.lit ':',.skip 16,
    .space,.skip 16,.space,.skip 10,.space,.skip 10,.space,.ulong 10]

/-- The format for `AF_INET`, which starts with `" %*d: %x:%x %x:%x"`. -/
def format4 : List Directive :=
  [.space,.skip 10,.lit ':',.space,.uint 16,.lit ':',.uint 16,.space,.uint 16,.lit ':',
    .uint 16]++formatEnd

/-- The other one, which starts with `" %*d: %32[0-9A-Fa-f]:%x %32[0-9A-Fa-f]:%x"`. -/
def format6 : List Directive :=
  [.space,.skip 10,.lit ':',.space,.set 32 isHexDigit,.lit ':',.uint 16,.space,
    .set 32 isHexDigit,.lit ':',.uint 16]++formatEnd

/-- `chunk`: eight bytes of `local_addr_str` as a string. -/
def chunk (localAddrStr : List Char) (i : ℕ) : List Char :=
  ((localAddrStr.drop (i*8)).take 8).takeWhile fun c => c≠ '\x00'

/-- `word` after it was read from a chunk, or not. -/
def chunkWord (word : UInt32) (chunk : List Char) : UInt32 :=
  match sscanf [.uint 16] chunk with
  | .uint w::_ => w
  | _ => word

/-- The loop that fills `s6_addr` from `local_addr_str`, which holds a text. -/
def chunkAddr (o : ByteOrder) (u : Indeterminate) (text : List Char) : In6Addr :=
  let localAddrStr := text++ '\x00'::u.localAddrStr.drop (text.length+1)
  fun j =>
    let i : Fin 4 := ⟨j/4,by omega⟩
    o.toBytes (chunkWord (u.word i) (chunk localAddrStr i)) ⟨j%4,by omega⟩

/-- The body of the loop in `parse_proc_net`. All six values are there exactly if `matched`
is six. -/
def parseLine (a : Allocator) (o : ByteOrder) (af : AddressFamily) (protocol : UInt16)
    (u : Indeterminate) (t : Growing InodeEntry) (line : List Char) : Growing InodeEntry :=
  if af=.inet then
    match sscanf format4 line with
    | [.uint localAddrHex,.uint localPort,.uint _,.uint _,.uint _,.ulong inode] =>
      if inode=0 then t
      else inodeTableAdd a t inode .inet protocol localPort.toUInt16
        (in6OfIn (o.toBytes localAddrHex))
    | _ => t
  else
    match sscanf format6 line with
    | [.text localAddrStr,.uint localPort,.text _,.uint _,.uint _,.ulong inode] =>
      if inode=0 then t
      else inodeTableAdd a t inode .inet6 protocol localPort.toUInt16
        (chunkAddr o u localAddrStr)
    | _ => t

/-- The loop over the lines behind the header. -/
def parseLines (a : Allocator) (o : ByteOrder) (af : AddressFamily) (protocol : UInt16) :
    (ℕ→Indeterminate)→Growing InodeEntry→List (List Char)→Growing InodeEntry
  | _,t,[] => t
  | u,t,line::lines =>
    parseLines a o af protocol (fun i => u (i+1)) (parseLine a o af protocol (u 0) t line) lines

/-- `parse_proc_net` on the content of a file, `none` when it cannot be opened. -/
def parseProcNet (a : Allocator) (o : ByteOrder) (file : Option (List Char)) (af : AddressFamily)
    (protocol : UInt16) (u : ℕ→Indeterminate) (t : Growing InodeEntry) : Growing InodeEntry :=
  match file with
  | none => t
  | some content => parseLines a o af protocol u t (fgetsAll 512 content.length content).tail

/-- The files that list sockets. -/
inductive NetTable where
  | tcp
  | tcp6
  | udp
  | udp6
  deriving DecidableEq

/-- Path of a file. -/
def NetTable.path : NetTable→List Char
  | .tcp => "/proc/net/tcp".toList
  | .tcp6 => "/proc/net/tcp6".toList
  | .udp => "/proc/net/udp".toList
  | .udp6 => "/proc/net/udp6".toList

/-- Address family of its sockets. -/
def NetTable.af : NetTable→AddressFamily
  | .tcp | .udp => .inet
  | .tcp6 | .udp6 => .inet6

/-- Transport protocol of its sockets. -/
def NetTable.protocol : NetTable→UInt16
  | .tcp | .tcp6 => 6
  | .udp | .udp6 => 17

/-- Width of the first column. -/
def NetTable.slWidth : NetTable→ℕ
  | .tcp | .tcp6 => 4
  | .udp | .udp6 => 5

/-- A socket that is listed, with all that is printed of it. -/
structure NetSocket where
  /-- Where it is listed. -/
  table : NetTable
  /-- Number of the row. -/
  sl : ℕ
  /-- Local address, in network order. -/
  localAddr : In6Addr
  /-- Local port. -/
  localPort : UInt16
  /-- Remote address, in network order. -/
  remAddr : In6Addr
  /-- Remote port. -/
  remPort : UInt16
  /-- State. -/
  st : UInt32
  /-- Bytes to be sent. -/
  txQueue : UInt32
  /-- Bytes to be received. -/
  rxQueue : UInt32
  /-- Kind of the active timer. -/
  tr : UInt32
  /-- When it expires. -/
  tmWhen : UInt64
  /-- Retransmissions. -/
  retrnsmt : UInt32
  /-- Owner. -/
  uid : UInt32
  /-- Unanswered probes. -/
  timeout : ℤ
  /-- Inode, if the socket has one. -/
  inode : Option {n : UInt64 // n≠0}
  /-- Other columns. -/
  more : List Char
  /-- The remaining columns are text. -/
  more_text : ∀ c∈more,isText c
  /-- A blank is before them. -/
  more_head : ∀ c∈more.head?,c= ' '

/-- The number that is printed for the inode. -/
def NetSocket.ino (s : NetSocket) : UInt64 :=
  match s.inode with
  | none => 0
  | some n => n.val

/-- Four bytes of an IPv6 address. -/
def wordBytes (addr : In6Addr) (i : Fin 4) : Bytes 4 := fun j => addr ⟨i*4+j,by omega⟩

/-- An address as words of the host, one or four of them. -/
def addrText (o : ByteOrder) (af : AddressFamily) (addr : In6Addr) : List Char :=
  if af=.inet then upperHex 8 (o.toWord (inOfIn6 addr)).toNat
  else (List.finRange 4).flatMap fun i => upperHex 8 (o.toWord (wordBytes addr i)).toNat

/-- The columns behind the addresses: `%02X %08X:%08X %02X:%08lX %08X %5u %8d %lu`. -/
def NetSocket.endText (s : NetSocket) : List Char :=
  ' '::upperHex 2 s.st.toNat++(' '::upperHex 8 s.txQueue.toNat++(':'::upperHex 8 s.rxQueue.toNat++
    (' '::upperHex 2 s.tr.toNat++(':'::upperHex 8 s.tmWhen.toNat++
      (' '::upperHex 8 s.retrnsmt.toNat++(' '::padded 5 (decimal s.uid.toNat)++
        (' '::padded 8 (signedDecimal s.timeout)++ ' '::decimal s.ino.toNat)))))))

/-- The row of a socket, which starts with `%4d: %08X:%04X %08X:%04X` for IPv4. -/
def NetSocket.row (o : ByteOrder) (s : NetSocket) : List Char :=
  padded s.table.slWidth (decimal s.sl)++(':':: ' '::addrText o s.table.af s.localAddr++
    (':'::upperHex 4 s.localPort.toNat++(' '::addrText o s.table.af s.remAddr++
      (':'::upperHex 4 s.remPort.toNat++(s.endText++s.more)))))

/-- A file: a header and the rows of its sockets. -/
def netFile (o : ByteOrder) (header : List Char) (sockets : List NetSocket) : List Char :=
  header++ '\n'::sockets.flatMap fun s => s.row o++['\n']

/-- The socket has this inode. -/
def NetSocket.HasInode (s : NetSocket) (n : UInt64) : Prop := s.inode.map Subtype.val=some n

instance (s : NetSocket) (n : UInt64) : Decidable (s.HasInode n) :=
  inferInstanceAs (Decidable (_=some n))

/-- The files, in the order in which they are read. -/
def netTables : List NetTable := [.tcp,.tcp6,.udp,.udp6]

/-- The sockets of a file. -/
def socketsOf (table : NetTable) (sockets : List NetSocket) : List NetSocket :=
  sockets.filter fun s => s.table=table

/-- What is known of a socket that has an inode. -/
def NetSocket.entry (s : NetSocket) : Option InodeEntry :=
  s.inode.map fun n => ⟨n.val,s.table.af,s.table.protocol,s.localPort,unionAddr s.table.af s.localAddr⟩

variable {a : Allocator} {o : ByteOrder} {u : Indeterminate} {rest : List Char}

/-- Hexadecimal digits behind a blank, for an `unsigned int`. -/
theorem reads_hex (width : ℕ) (n : UInt32) (hs : Stops rest) :
    Reads [.space,.uint 16] (' '::upperHex width n.toNat) [.uint n] rest :=
  (digits_upperHex _ _).blank ((digits_upperHex _ _).uint hs)

/-- Two suppressed hexadecimal numbers with a colon between them. -/
theorem reads_pair (width width' m n : ℕ) (hs : Stops rest) :
    Reads [.space,.skip 16,.lit ':',.skip 16]
      (' '::upperHex width m++(':'::upperHex width' n)) [] rest := by
  have hfirst : Reads [.space,.skip 16] (' '::upperHex width m) []
      (':'::upperHex width' n++rest) :=
    (digits_upperHex _ _).blank
      ((digits_upperHex _ _).skip (stops_colon _))
  exact hfirst.append ((digits_upperHex _ _).skip hs).lit

/-- The state and the inode are read from the columns behind the addresses. -/
theorem NetSocket.reads_end (s : NetSocket) (hs : Stops rest) :
    Reads formatEnd s.endText [.uint s.st,.ulong s.ino] rest := by
  have hino : Reads [.space,.ulong 10] (' '::decimal s.ino.toNat) [.ulong s.ino] rest :=
    (digits_decimal _).blank ((digits_decimal _).ulong hs)
  have htimeout : Reads [.space,.skip 10] (' '::padded 8 (signedDecimal s.timeout)) []
      (' '::decimal s.ino.toNat++rest) :=
    ((signedDecimal_skip _ (stops_blank _)).padded (signedDecimal_dropWhile _ _) 8).blank
  have huid {text : List Char} : Reads [.space,.skip 10] (' '::padded 5 (decimal s.uid.toNat)) []
      (' '::text) :=
    (((digits_decimal _).skip (stops_blank _)).padded
      ((digits_decimal _).dropWhile _) 5).blank
  have hretr {text : List Char} : Reads [.space,.skip 16] (' '::upperHex 8 s.retrnsmt.toNat) []
      (' '::text) :=
    (digits_upperHex _ _).blank ((digits_upperHex _ _).skip (stops_blank _))
  have howner := huid.append (htimeout.append hino)
  have htimer := (reads_pair 2 8 s.tr.toNat s.tmWhen.toNat (stops_blank _)).append
    (hretr.append howner)
  have hqueues := (reads_pair 8 8 s.txQueue.toNat s.rxQueue.toNat (stops_blank _)).append htimer
  have hall := (reads_hex 2 s.st (stops_blank _)).append hqueues
  rw [List.append_assoc,List.append_assoc] at hall
  exact hall

/-- Row number, port and the other columns, around addresses that are read as something. -/
theorem NetSocket.reads_row (s : NetSocket) {d : Directive} {v v' : Value} (hs : Stops rest)
    (hlocal : ∀ text,Stops text→
      Reads [.space,d] (' '::addrText o s.table.af s.localAddr) [v] text)
    (hrem : ∀ text,Stops text→
      Reads [.space,d] (' '::addrText o s.table.af s.remAddr) [v'] text) :
    sscanf ([.space,.skip 10,.lit ':',.space,d,.lit ':',.uint 16,.space,d,.lit ':',.uint 16]++
      formatEnd) (s.row o++rest)=
      [v,.uint s.localPort.toUInt32,v',.uint s.remPort.toUInt32,.uint s.st,.ulong s.ino] := by
  have hport {text : List Char} (port : UInt16) (h : Stops text) :
      Reads [.lit ':',.uint 16] (':'::upperHex 4 port.toNat) [.uint port.toUInt32] text :=
    ((digits_upperHex 4 port.toUInt32.toNat).uint h).lit
  have hmore : Stops (s.more++rest) := by
    cases hmore : s.more with
    | nil => exact hs
    | cons c cs =>
      have hc : c= ' ' := s.more_head c (by rw [hmore]; rfl)
      rw [hc]
      exact stops_blank _
  have hsl {text : List Char} (h : Stops text) :
      Reads [.space,.skip 10] (padded s.table.slWidth (decimal s.sl)) [] text :=
    ((digits_decimal _).skip h).padded ((digits_decimal _).dropWhile _) _
  have hend : Stops (s.endText++(s.more++rest)) := stops_blank _
  have hremote := (hrem _ (stops_colon _)).append ((hport s.remPort hend).append (s.reads_end hmore))
  have hboth := ((hlocal _ (stops_colon _)).lit (c:= ':')).append
    ((hport s.localPort (stops_blank _)).append hremote)
  have hall := (hsl (stops_colon _)).append hboth
  have hread := hall.sscanf
  simp only [List.append_assoc] at hread
  unfold NetSocket.row
  simp only [List.append_assoc]
  exact hread

/-- One of the pieces of equal length that a text starts with. -/
theorem take_flatMap {ι : Type} {f : ι→List Char} {k : ℕ} (hf : ∀ x,(f x).length=k)
    (l : List ι) (rest : List Char) {i : ℕ} (hi : i<l.length) :
    ((l.flatMap f++rest).drop (i*k)).take k=f l[i] := by
  induction l generalizing i with
  | nil => exact absurd hi (Nat.not_lt_zero i)
  | cons x xs ih =>
    rw [List.flatMap_cons,List.append_assoc]
    cases i with
    | zero => rw [Nat.zero_mul,List.drop_zero,List.take_left' (hf x),List.getElem_cons_zero]
    | succ i =>
      rw [Nat.succ_mul,Nat.add_comm,←List.drop_drop,List.drop_left' (hf x),
        ih (Nat.lt_of_succ_lt_succ hi),List.getElem_cons_succ]

/-- A word is printed with eight digits. -/
theorem length_wordText (w : UInt32) : (upperHex 8 w.toNat).length=8 :=
  length_upperHex (by decide) w.toNat_lt

/-- The text of an IPv6 address is 32 hexadecimal digits. -/
theorem addrText_inet6 (o : ByteOrder) (addr : In6Addr) :
    (addrText o .inet6 addr).length=32 ∧ ∀ c∈addrText o .inet6 addr,isHexDigit c=true := by
  have htext : addrText o .inet6 addr=
      (List.finRange 4).flatMap fun i => upperHex 8 (o.toWord (wordBytes addr i)).toNat := rfl
  rw [htext]
  constructor
  · rw [List.length_flatMap]
    simp only [length_wordText]
    rfl
  · intro c hc
    obtain ⟨i,-,hi⟩ := List.mem_flatMap.mp hc
    exact decide_eq_true ((digits_upperHex 8 _).digits c hi)

/-- The word of a chunk is read back from its eight digits. -/
theorem chunkWord_wordText (word w : UInt32) : chunkWord word (upperHex 8 w.toNat)=w := by
  have hread := ((digits_upperHex 8 w.toNat).uint stops_nil).sscanf
  rw [List.append_nil] at hread
  rw [chunkWord,hread]

/-- An IPv6 address is read back from its words, whatever was in the variables before. -/
theorem chunkAddr_addrText (o : ByteOrder) (u : Indeterminate) (addr : In6Addr) :
    chunkAddr o u (addrText o .inet6 addr)=addr := by
  have hchunk {i : ℕ} (hi : i<4) (rest : List Char) :
      chunk (addrText o .inet6 addr++rest) i=upperHex 8 (o.toWord (wordBytes addr ⟨i,hi⟩)).toNat := by
    have hpiece := take_flatMap (fun i => length_wordText (o.toWord (wordBytes addr i)))
      (List.finRange 4) rest (i:=i) (by rwa [List.length_finRange])
    rw [List.getElem_finRange] at hpiece
    have hclean : ∀ c∈upperHex 8 (o.toWord (wordBytes addr ⟨i,hi⟩)).toNat,
        decide (c≠ '\x00')=true := by
      intro c hc
      have hdigit := (digits_upperHex 8 _).digits c hc
      refine decide_eq_true ?_
      rintro rfl
      revert hdigit
      decide
    exact (congrArg _ hpiece).trans (List.takeWhile_eq_self_iff.mpr hclean)
  funext j
  have hj : (⟨j/4*4+j%4,by omega⟩ : Fin 16)=j := Fin.ext (Nat.div_add_mod' j 4)
  simp only [chunkAddr]
  rw [hchunk (i:=j/4) (by omega),chunkWord_wordText,o.toBytes_toWord]
  exact congrArg addr hj

/-- A row is read as the entry of its socket, or skipped if the socket has no inode. -/
theorem parseLine_row (s : NetSocket) (t : Growing InodeEntry) (hs : Stops rest) :
    parseLine a o s.table.af s.table.protocol u t (s.row o++rest)=
      s.entry.elim t (t.append a inodeLayout) := by
  have hport : s.localPort.toUInt32.toUInt16=s.localPort := UInt16.toUInt16_toUInt32 _
  have hinode (addr : In6Addr)
      (haddr : unionAddr s.table.af addr=unionAddr s.table.af s.localAddr) :
      (if s.ino=0 then t
        else inodeTableAdd a t s.ino s.table.af s.table.protocol s.localPort addr)=
        s.entry.elim t (t.append a inodeLayout) := by
    unfold NetSocket.ino NetSocket.entry
    cases s.inode with
    | none => exact if_pos rfl
    | some n =>
      refine (if_neg n.2).trans ?_
      rw [inodeTableAdd,haddr]
      rfl
  have haf : s.table.af=.inet ∨ s.table.af=.inet6 := by
    cases s.table
    · exact .inl rfl
    · exact .inr rfl
    · exact .inl rfl
    · exact .inr rfl
  rcases haf with haf|haf
  · have hread := s.reads_row (o:=o) (d:=.uint 16) hs (fun _ h => by rw [haf]; exact reads_hex 8 _ h)
      (fun _ h => by rw [haf]; exact reads_hex 8 _ h)
    have haddr := hinode (in6OfIn (o.toBytes (o.toWord (inOfIn6 s.localAddr)))) (by
      rw [o.toBytes_toWord,haf,unionAddr_inet,unionAddr_inet,inOfIn6_in6OfIn])
    rw [haf] at haddr ⊢
    rw [parseLine,if_pos rfl,format4,hread]
    dsimp only
    rw [hport]
    exact haddr
  · have hset (addr : In6Addr) (text : List Char) : Reads [.space,.set 32 isHexDigit]
        (' '::addrText o s.table.af addr) [.text (addrText o .inet6 addr)] text := by
      obtain ⟨hlen,hhex⟩ := addrText_inet6 o addr
      have hne : addrText o .inet6 addr≠[] := List.ne_nil_of_length_pos (by rw [hlen]; decide)
      have hdigits : Digits 16 (addrText o .inet6 addr) (value 16 (addrText o .inet6 addr)) :=
        ⟨le_refl 16,hne,fun c hc => of_decide_eq_true (hhex c hc),rfl⟩
      have hread := reads_set hne hhex text
      rw [hlen] at hread
      rw [haf]
      exact hdigits.blank hread
    have hread := s.reads_row (o:=o) hs (fun text _ => hset s.localAddr text)
      (fun text _ => hset s.remAddr text)
    have haddr := hinode (chunkAddr o u (addrText o .inet6 s.localAddr)) (by
      rw [chunkAddr_addrText])
    rw [haf] at haddr ⊢
    rw [parseLine,if_neg (by decide),format6,hread]
    dsimp only
    rw [hport]
    exact haddr

/-- Text that fills the room is read without its newline. -/
theorem upToNewline_full {p : List Char} (hp : ∀ c∈p,c≠ '\n') (rest : List Char) :
    upToNewline p.length (p++rest)=(p,rest) := by
  induction p with
  | nil => rfl
  | cons c cs ih =>
    rw [List.cons_append,List.length_cons,upToNewline,if_neg (hp c List.mem_cons_self),
      ih fun d hd => hp d (List.mem_cons_of_mem _ hd)]

/-- A line that is shorter than the buffer is read with its newline, or its newline is read as a
line of its own. -/
theorem fgetsAll_line {n fuel : ℕ} {p : List Char} (hp : ∀ c∈p,isText c) (hn : 1<n)
    (hlen : p.length<n) (hfuel : (p++ '\n'::rest).length≤fuel) :
    ∃ fuel',rest.length≤fuel' ∧
      (fgetsAll n fuel (p++ '\n'::rest)=(p++['\n'])::fgetsAll n fuel' rest ∨
        fgetsAll n fuel (p++ '\n'::rest)=p::['\n']::fgetsAll n fuel' rest) := by
  rw [List.length_append,List.length_cons] at hfuel
  by_cases hroom : p.length+1<n
  · obtain ⟨fuel,rfl⟩ := Nat.exists_eq_add_of_le' (show 1≤fuel by omega)
    refine ⟨fuel,by omega,.inl ?_⟩
    rw [fgetsAll,ConfigFile.fgets_line rest hp hroom]
  · obtain ⟨fuel,rfl⟩ := Nat.exists_eq_add_of_le' (show 2≤fuel by omega)
    have hne : p≠[] := by
      rintro rfl
      rw [List.length_nil] at hroom
      omega
    have hfirst : fgets n (p++ '\n'::rest)=some (p,'\n'::rest) := by
      have hn' : n-1=p.length := by omega
      have htake := ConfigFile.takeWhile_text hp []
      rw [List.takeWhile_nil,List.append_nil] at htake
      rw [fgets,if_neg (by omega),if_neg (by omega),if_neg (by simp),hn',
        upToNewline_full (ConfigFile.ne_newline hp)]
      dsimp only
      rw [htake]
    have hsecond : fgets n ('\n'::rest)=some (['\n'],rest) :=
      ConfigFile.fgets_line (p:=[]) rest (by simp) (by rw [List.length_nil]; omega)
    refine ⟨fuel,by omega,.inr ?_⟩
    rw [fgetsAll,hfirst]
    dsimp only
    rw [fgetsAll,hsecond]

/-- A line that is a newline alone leaves the table as it is. -/
theorem parseLine_newline (a : Allocator) (o : ByteOrder) (af : AddressFamily)
    (protocol : UInt16) (u : Indeterminate) (t : Growing InodeEntry) :
    parseLine a o af protocol u t ['\n']=t := by
  have h4 : sscanf format4 ['\n']=[] := rfl
  have h6 : sscanf format6 ['\n']=[] := rfl
  unfold parseLine
  rw [h4,h6]
  split <;> rfl

/-- The digits of a number have neither NUL nor newline. -/
theorem isText_of_digits {b n : ℕ} {s : List Char} (h : Digits b s n) :
    ∀ c∈s,isText c=true := by
  intro c hc
  have hdigit : digitValue c<16 := (h.digits c hc).trans_le h.base_le
  have hnul : c≠ '\x00' := by
    rintro rfl
    revert hdigit
    decide
  have hnewline : c≠ '\n' := by
    rintro rfl
    revert hdigit
    decide
  simp [isText,hnul,hnewline]

/-- A padded text has neither NUL nor newline if the text has none. -/
theorem isText_padded {s : List Char} (hs : ∀ c∈s,isText c=true) (width : ℕ) :
    ∀ c∈padded width s,isText c=true := by
  refine List.forall_mem_append.mpr ⟨?_,hs⟩
  intro c hc
  rw [(List.mem_replicate.mp hc).2]
  rfl

/-- A row of the file has neither NUL nor newline. -/
theorem NetSocket.row_text (o : ByteOrder) (s : NetSocket) : ∀ c∈s.row o,isText c=true := by
  have hhex (width n : ℕ) : ∀ c∈upperHex width n,isText c=true :=
    isText_of_digits (digits_upperHex width n)
  have hdec (n : ℕ) : ∀ c∈decimal n,isText c=true := isText_of_digits (digits_decimal n)
  have haddr (addr : In6Addr) : ∀ c∈addrText o s.table.af addr,isText c=true := by
    unfold addrText
    split
    · exact hhex 8 _
    · intro c hc
      obtain ⟨i,-,hi⟩ := List.mem_flatMap.mp hc
      exact hhex 8 _ c hi
  have htimeout : ∀ c∈signedDecimal s.timeout,isText c=true := by
    unfold signedDecimal
    split
    · exact List.forall_mem_cons.mpr ⟨rfl,hdec _⟩
    · exact hdec _
  have hjoin {p q : List Char} (hp : ∀ c∈p,isText c=true) (hq : ∀ c∈q,isText c=true) :
      ∀ c∈p++q,isText c=true := List.forall_mem_append.mpr ⟨hp,hq⟩
  have hcons {c : Char} {p : List Char} (hc : isText c=true) (hp : ∀ d∈p,isText d=true) :
      ∀ d∈c::p,isText d=true := List.forall_mem_cons.mpr ⟨hc,hp⟩
  have hend : ∀ c∈s.endText,isText c=true :=
    hjoin (hcons rfl (hhex _ _)) (hjoin (hcons rfl (hhex _ _)) (hjoin (hcons rfl (hhex _ _))
      (hjoin (hcons rfl (hhex _ _)) (hjoin (hcons rfl (hhex _ _)) (hjoin (hcons rfl (hhex _ _))
        (hjoin (hcons rfl (isText_padded (hdec _) 5))
          (hjoin (hcons rfl (isText_padded htimeout 8)) (hcons rfl (hdec _)))))))))
  exact hjoin (isText_padded (hdec _) _) (hjoin (hcons rfl (hcons rfl (haddr _)))
    (hjoin (hcons rfl (hhex _ _)) (hjoin (hcons rfl (haddr _))
      (hjoin (hcons rfl (hhex _ _)) (hjoin hend s.more_text)))))

/-- The rows of a file are read as the entries of their sockets, in order. -/
theorem parseLines_rows {table : NetTable} {sockets : List NetSocket} {fuel : ℕ}
    (htable : ∀ s∈sockets,s.table=table) (hlen : ∀ s∈sockets,(s.row o).length<512)
    (hfuel : (sockets.flatMap fun s => s.row o++['\n']).length≤fuel) (u : ℕ→Indeterminate)
    (t : Growing InodeEntry) :
    parseLines a o table.af table.protocol u t
      (fgetsAll 512 fuel (sockets.flatMap fun s => s.row o++['\n']))=
      (sockets.filterMap NetSocket.entry).foldl (Growing.append a inodeLayout) t := by
  induction sockets generalizing fuel u t with
  | nil => cases fuel <;> rfl
  | cons s sockets ih =>
    obtain ⟨rfl,htables⟩ := List.forall_mem_cons.mp htable
    obtain ⟨hrow,hrows⟩ := List.forall_mem_cons.mp hlen
    have hnext (t : Growing InodeEntry) :
        ((s::sockets).filterMap NetSocket.entry).foldl (Growing.append a inodeLayout) t=
          (sockets.filterMap NetSocket.entry).foldl (Growing.append a inodeLayout)
            (s.entry.elim t (t.append a inodeLayout)) := by
      cases hentry : s.entry with
      | none => rw [List.filterMap_cons_none hentry]; rfl
      | some e => rw [List.filterMap_cons_some hentry]; rfl
    rw [List.flatMap_cons,List.append_assoc,List.singleton_append] at hfuel ⊢
    obtain ⟨fuel',hfuel',hread|hread⟩ := fgetsAll_line (s.row_text o) (by decide) hrow hfuel
    · have hstop : Stops ['\n'] := stops_cons [] (by decide)
      rw [hread,parseLines,parseLine_row s t hstop,ih htables hrows hfuel',hnext]
    · have hline := parseLine_row (a:=a) (o:=o) (u:=u 0) s t stops_nil
      rw [List.append_nil] at hline
      rw [hread,parseLines,parseLines,hline,parseLine_newline,ih htables hrows hfuel',hnext]

/-- A file is read as the entries of its sockets, in order. -/
theorem parseProcNet_netFile {table : NetTable} {sockets : List NetSocket} {header : List Char}
    (hheader : ∀ c∈header,isText c=true) (hshort : header.length<512)
    (htable : ∀ s∈sockets,s.table=table) (hlen : ∀ s∈sockets,(s.row o).length<512)
    (u : ℕ→Indeterminate) (t : Growing InodeEntry) :
    parseProcNet a o (some (netFile o header sockets)) table.af table.protocol u t=
      (sockets.filterMap NetSocket.entry).foldl (Growing.append a inodeLayout) t := by
  obtain ⟨fuel,hfuel,hread|hread⟩ := fgetsAll_line hheader (n:=512) (by decide) hshort
    (Nat.le_refl (netFile o header sockets).length)
  · have hread' : fgetsAll 512 (netFile o header sockets).length (netFile o header sockets)=_ := hread
    simp only [parseProcNet]
    rw [hread',List.tail_cons,parseLines_rows htable hlen hfuel]
  · have hread' : fgetsAll 512 (netFile o header sockets).length (netFile o header sockets)=_ := hread
    simp only [parseProcNet]
    rw [hread',List.tail_cons,parseLines,parseLine_newline,parseLines_rows htable hlen hfuel]

/-- Entries of all sockets that have an inode, in the order in which they are read. -/
def inodeEntries (sockets : List NetSocket) : List InodeEntry :=
  (netTables.flatMap fun table => socketsOf table sockets).filterMap NetSocket.entry

/-- Every socket is listed in one of the files. -/
theorem socketsOf_perm (sockets : List NetSocket) :
    (netTables.flatMap fun table => socketsOf table sockets).Perm sockets := by
  have hall (l : List NetSocket) : (netTables.flatMap fun table => socketsOf table l)=
      socketsOf .tcp l++(socketsOf .tcp6 l++(socketsOf .udp l++socketsOf .udp6 l)) := by
    simp [netTables]
  rw [hall]
  induction sockets with
  | nil => exact .nil
  | cons s sockets ih =>
    have hcons (table : NetTable) : socketsOf table (s::sockets)=
        if s.table=table then s::socketsOf table sockets else socketsOf table sockets := by
      simp only [socketsOf,List.filter_cons,decide_eq_true_eq]
    cases htable : s.table <;>
      simp only [hcons,htable,reduceCtorEq,if_true,if_false,List.cons_append]
    · exact ih.cons s
    · exact List.perm_middle.trans (ih.cons s)
    · rw [←List.append_assoc] at ih ⊢
      exact List.perm_middle.trans (ih.cons s)
    · rw [←List.append_assoc,←List.append_assoc] at ih ⊢
      exact List.perm_middle.trans (ih.cons s)

/-- Sockets with the same inode are the same. -/
theorem hasInode_unique {sockets : List NetSocket} (h : (sockets.filterMap NetSocket.inode).Nodup)
    (n : UInt64) : {s∈sockets | s.HasInode n}.Subsingleton := by
  have hpair := List.pairwise_filterMap.mp h
  rintro s ⟨hs,hn⟩ s' ⟨hs',hn'⟩
  by_contra hne
  obtain ⟨m,hm,hval⟩ := Option.map_eq_some_iff.mp hn
  obtain ⟨m',hm',hval'⟩ := Option.map_eq_some_iff.mp hn'
  have hsame : m=m' := Subtype.ext (hval.trans hval'.symm)
  have hsymm : Std.Symm fun s s' : NetSocket =>
      ∀ m,s.inode=some m→∀ m',s'.inode=some m'→m≠m' :=
    ⟨fun _ _ h m hm m' hm' => (h m' hm' m hm).symm⟩
  exact hpair.forall hs hs' hne m hm m' hm' hsame

/-- In a table with the entries of all sockets, `inode_table_find` finds the socket that has an
inode. -/
theorem inodeTableFind_eq {sockets : List NetSocket} {t : Growing InodeEntry}
    (h : (sockets.filterMap NetSocket.inode).Nodup) (ht : t.entries=inodeEntries sockets)
    (n : UInt64) :
    inodeTableFind t n=(sockets.find? fun s => s.HasInode n).bind NetSocket.entry := by
  have hentry : (fun s : NetSocket => s.entry.any fun e => decide (e.inode=n))=
      fun s => decide (s.HasInode n) := by
    funext s
    rw [Bool.eq_iff_iff,decide_eq_true_iff,NetSocket.entry,NetSocket.HasInode]
    cases s.inode with
    | none => simp
    | some m => simp
  have hunique : {s∈netTables.flatMap fun table => socketsOf table sockets |
      decide (s.HasInode n)=true}.Subsingleton := by
    simp only [(socketsOf_perm sockets).mem_iff,decide_eq_true_eq]
    exact hasInode_unique h n
  rw [inodeTableFind,ht,inodeEntries,List.find?_filterMap,hentry,
    List.find?_eq_find?_of_perm (socketsOf_perm sockets) hunique]

end IftopColor.ProcNet
