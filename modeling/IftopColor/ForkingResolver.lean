import IftopColor.GuardedRun
import IftopColor.ResolverCache
import IftopColor.TextBuffer

/-!
# The resolver that forks

Each of the two threads keeps a child process and talks to it over a pair of stream sockets. A call
writes the bytes of an IPv6 address, which is what its parameter is declared to be, and waits for a
name. The child waits for the bytes of an `addr_storage`, which is longer, and a read that returns
less ends it. Then the thread gives up the child, and the next call starts another one.

A child has all files of the program at its birth, with them the end of the other child if the
other thread has not closed it yet. And it has the handler of the program for `SIGINT`, which does
not restart a read: an interrupt from the keyboard ends a child that waits for its first request.
-/

namespace IftopColor.ForkingResolver

open GuardedRun ChainTable AddrHash Options PacketDirection Resolver ResolverCache TextBuffer

/-- `NAMESIZE`. -/
def namesize : ℕ := 64

/-- `sizeof` of what `do_resolve` is declared to be given: `struct in6_addr`. -/
def sizeofIn6Addr : ℕ := 16

/-- `sizeof` of what the worker reads: `struct addr_storage`. -/
def sizeofAddrStorage : ℕ := 24

/-- An `int` of this size in the memory of a little-endian host. -/
def intBytes (n : UInt8) : List UInt8 := [n,0,0,0]

/-- An address in memory, with the numbers that Linux gives to the families. -/
def memory (addr : AddrStorage) : List UInt8 :=
  let family := match addr.addressFamily with
    | .unspec => 0
    | .inet => 2
    | .inet6 => 10
  intBytes family++intBytes (UInt8.ofNat addr.addrLen)++List.ofFn addr.addr

/-- The memory of an address has the size of the structure. -/
theorem length_memory (addr : AddrStorage) : (memory addr).length=sizeofAddrStorage := by
  simp [memory,intBytes,sizeofAddrStorage]

/-- Where `forking_resolver_worker` is. -/
inductive ChildPc where
  | reading
  | replying (buf : List Char)
  | exited
  deriving DecidableEq

/-- A child with the bytes that are under way to it and from it. -/
structure Child where
  /-- Where it is. -/
  pc : ChildPc
  /-- Bytes for it. -/
  requests : List UInt8
  /-- Bytes for the thread. -/
  replies : List Char
  /-- The pair of sockets of the other thread whose child's end it was born with. -/
  inherited : Option ℕ

/-- A child that has not exited holds its files. -/
def Child.alive (child : Child) : Bool := decide (child.pc≠.exited)

/-- Where `do_resolve` is. -/
inductive CallerPc where
  | idle
  | called (addr : AddrStorage)
  | paired (addr : AddrStorage)
  | forked (addr : AddrStorage)
  | writing (addr : AddrStorage)
  | reading
  | failing
  | returned (name : Option (List Char))
  | signalled

/-- `p[1]` is open in the program. -/
def CallerPc.holdsEnd : CallerPc→Bool
  | .paired _ => true
  | .forked _ => true
  | _ => false

/-- There is no call. -/
def CallerPc.isIdle : CallerPc→Bool
  | .idle => true
  | _ => false

/-- `SIGPIPE` has come. -/
def CallerPc.dead : CallerPc→Bool
  | .signalled => true
  | _ => false

/-- A thread with its `workerinfo`. -/
structure Caller where
  /-- Where it is. -/
  pc : CallerPc
  /-- The child of this thread, if it has one. -/
  child : Option Child
  /-- Pairs of sockets that it has made. -/
  sockets : ℕ

/-- System calls with what they return. A read or a write that fails has 0 bytes. -/
inductive CallerAct where
  | socketpair (ok : Bool)
  | fork (ok : Bool)
  | close
  | write (k : ℕ)
  | read (k : ℕ)
  | kill
  | childRead (k : ℕ)
  | childWrite (k : ℕ)

/-- `buf` with the name of the host, or without one. -/
def nameBuffer (he : Option (List Char)) : List Char :=
  ((he.getD []).take (namesize-1)).rightpad namesize nul

/-- What `do_resolve` makes of the buffer it read. -/
def nameOf (name : List Char) : Option (List Char) :=
  if name.head?=some nul then none else some (name.takeWhile fun c => c≠ nul)

/-- What a thread finds around it. -/
structure Surroundings where
  /-- Somebody holds the end of its child. -/
  endOpen : Bool
  /-- The pair of sockets whose ends are both open in the program for the other thread. -/
  otherPair : Option ℕ
  /-- There was an interrupt. -/
  foad : Bool

section Steps

variable (size : ℕ) (inetNtop : AddressFamily→ In6Addr→List Char)
  (gethostbyaddr : List UInt8→Option (List Char)) (around : Surroundings)

/-- `do_resolve` up to its fork: a thread without a child makes a pair of sockets. -/
def callSocketpair (ok : Bool) (c : Caller) : Option Caller :=
  match c.pc,c.child with
  | .called addr,some _ => some {c with pc := .writing addr}
  | .called addr,none =>
    if ok then some {c with pc := .paired addr,sockets := c.sockets+1}
    else some {c with pc := .returned none}
  | _,_ => none

/-- The fork of `do_resolve`, after which a child has the files of the program. -/
def callFork (ok : Bool) (c : Caller) : Option Caller :=
  match c.pc with
  | .paired addr =>
    if ok then some {c with pc := .forked addr,child := some ⟨.reading,[],[],around.otherPair⟩}
    else some {c with pc := .returned none}
  | _ => none

/-- The `close` by which the program gives up the end of the child. -/
def callClose (c : Caller) : Option Caller :=
  match c.pc with
  | .forked addr => some {c with pc := .writing addr}
  | _ => none

/-- The write of a request of `size` bytes. A signal ends the program if nobody can read them. -/
def callWrite (k : ℕ) (c : Caller) : Option Caller :=
  match c.pc,c.child with
  | .writing addr,some child =>
    if around.endOpen=false then some {c with pc := .signalled}
    else if k≤ size then
      some {c with
        pc := if k=size then .reading else .failing
        child := some {child with requests := child.requests++((memory addr).take size).take k}}
    else none
  | _,_ => none

/-- The read of a reply, which waits for bytes, for the end of the stream or for an interrupt. -/
def callRead (k : ℕ) (c : Caller) : Option Caller :=
  match c.pc,c.child with
  | .reading,some child =>
    if k=0 then
      if (around.endOpen=false ∧ child.replies=[]) ∨ around.foad=true then
        some {c with pc := .failing}
      else none
    else if k≤ min namesize child.replies.length then
      some {c with
        pc := if k=namesize then .returned (nameOf (child.replies.take k)) else .failing
        child := some {child with replies := child.replies.drop k}}
    else none
  | _,_ => none

/-- The branch of `do_resolve` for an error: the child is killed and forgotten. -/
def callKill (c : Caller) : Option Caller :=
  match c.pc with
  | .failing => some {c with pc := .returned none,child := none}
  | _ => none

/-- The read of `forking_resolver_worker`, which waits for bytes or for an interrupt. The stream
does not end as long as it is there, since its thread kills it before it closes its own end. -/
def workerRead (k : ℕ) (child : Child) : Option Child :=
  if child.pc≠.reading then none
  else if k=0 then
    if around.foad then some {child with pc := .exited} else none
  else if k≤ min sizeofAddrStorage child.requests.length then
    some {child with
      pc :=
        if k=sizeofAddrStorage then .replying (nameBuffer (gethostbyaddr (child.requests.take k)))
        else .exited
      requests := child.requests.drop k}
  else none

/-- The write of `forking_resolver_worker`. -/
def workerWrite (k : ℕ) (child : Child) : Option Child :=
  match child.pc with
  | .replying buf =>
    if k≤namesize then
      some {child with
        pc := if k=namesize then .reading else .exited
        replies := child.replies++buf.take k}
    else none
  | _ => none

/-- The effect of a system call of a thread or of its child. -/
def nextCaller (c : Caller) : CallerAct→Option Caller
  | .socketpair ok => callSocketpair ok c
  | .fork ok => callFork around ok c
  | .close => callClose c
  | .write k => callWrite size around k c
  | .read k => callRead around k c
  | .kill => callKill c
  | .childRead k => c.child.bind fun child =>
    (workerRead gethostbyaddr around k child).map fun child => {c with child := some child}
  | .childWrite k => c.child.bind fun child =>
    (workerWrite k child).map fun child => {c with child := some child}

/-- The cache and the queue with the two threads. -/
structure Resolving where
  /-- What the mutex protects. -/
  system : System
  /-- The threads that resolve. -/
  callers : Fin 2→Caller
  /-- The interrupt of `finish`. -/
  foad : Bool

/-- No thread has a child at the start. -/
def initResolving : Resolving := ⟨initSystem,fun _ => ⟨.idle,none,0⟩,false⟩

/-- Somebody holds the end of the child of a thread: the program itself, the child, or the other
child. -/
def endOpen (callers : Fin 2→Caller) (w : Fin 2) : Bool :=
  (callers w).pc.holdsEnd || (callers w).child.any Child.alive ||
    (callers w.rev).child.any fun child =>
      child.alive && decide (child.inherited=some (callers w).sockets)

/-- What is around a thread. -/
def surroundings (s : Resolving) (w : Fin 2) : Surroundings where
  endOpen := endOpen s.callers w
  otherPair := if (s.callers w.rev).pc.holdsEnd then some (s.callers w.rev).sockets else none
  foad := s.foad

/-- The program was ended by `SIGPIPE`. -/
def Resolving.ended (s : Resolving) : Bool := decide (∃ w,(s.callers w).pc.dead=true)

/-- Calls of `resolve`, what the threads and their children do, and an interrupt. -/
inductive Action where
  | resolve (o : OptionsT) (af : AddressFamily) (addr : In6Addr) (buflen : ℤ)
  | take (w : Fin 2)
  | caller (w : Fin 2) (a : CallerAct)
  | store (w : Fin 2)
  | interrupt

/-- The effect of an action. -/
def next (s : Resolving) (a : Action) : Option Resolving :=
  if s.ended then none
  else match a with
    | .resolve o af addr buflen =>
      some {s with system := stepSystem inetNtop s.system (.resolve o af addr buflen)}
    | .take w =>
      let system := stepSystem inetNtop s.system (.take w)
      match (s.callers w).pc,system.workers w with
      | .idle,some addr => some {s with
          system := system
          callers := Function.update s.callers w {s.callers w with pc := .called addr}}
      | _,_ => none
    | .caller w a => (nextCaller size gethostbyaddr (surroundings s w) (s.callers w) a).map fun c =>
      {s with callers := Function.update s.callers w c}
    | .store w =>
      match (s.callers w).pc with
      | .returned name => some {s with
          system := stepSystem inetNtop s.system (.store w name)
          callers := Function.update s.callers w {s.callers w with pc := .idle}}
      | _ => none
    | .interrupt => some {s with foad := true}

end Steps

/-- Actions of a thread and its child during a call. -/
def Moves (w : Fin 2) : Action→Prop
  | .caller w' _ => w'=w
  | .store w' => w'=w
  | _ => False

/-- How far a call is from its end. -/
def rank (c : Caller) : ℕ :=
  let call := match c.pc with
    | .idle => 0
    | .called _ => 7
    | .paired _ => 6
    | .forked _ => 5
    | .writing _ => 4
    | .reading => 3
    | .failing => 2
    | .returned _ => 1
    | .signalled => 0
  2*call+if c.child.any fun child => child.pc=.reading then 1 else 0

/-- A child that waits for its first request, or that was interrupted. -/
def Waiting (foad : Bool) (pc : ChildPc) : Prop := pc=.reading ∨ pc=.exited ∧ foad=true

/-- A thread whose requests are too short. -/
inductive Unanswered (foad : Bool) : Caller→Prop where
  | idle (n : ℕ) : Unanswered foad ⟨.idle,none,n⟩
  | called (addr : AddrStorage) (n : ℕ) : Unanswered foad ⟨.called addr,none,n⟩
  | paired (addr : AddrStorage) (n : ℕ) : Unanswered foad ⟨.paired addr,none,n⟩
  | forked (addr : AddrStorage) (n : ℕ) {pc : ChildPc} (i : Option ℕ) (h : Waiting foad pc) :
    Unanswered foad ⟨.forked addr,some ⟨pc,[],[],i⟩,n⟩
  | writing (addr : AddrStorage) (n : ℕ) {pc : ChildPc} (i : Option ℕ) (h : Waiting foad pc) :
    Unanswered foad ⟨.writing addr,some ⟨pc,[],[],i⟩,n⟩
  | reading (n : ℕ) {requests : List UInt8} (i : Option ℕ)
    (h : requests.length=sizeofIn6Addr) :
    Unanswered foad ⟨.reading,some ⟨.reading,requests,[],i⟩,n⟩
  | ended (n : ℕ) (requests : List UInt8) (i : Option ℕ) :
    Unanswered foad ⟨.reading,some ⟨.exited,requests,[],i⟩,n⟩
  | failing (n : ℕ) {requests : List UInt8} (i : Option ℕ)
    (h : requests.length≤ sizeofIn6Addr) :
    Unanswered foad ⟨.failing,some ⟨.reading,requests,[],i⟩,n⟩
  | dead (n : ℕ) (requests : List UInt8) (i : Option ℕ) :
    Unanswered foad ⟨.failing,some ⟨.exited,requests,[],i⟩,n⟩
  | returned (n : ℕ) : Unanswered foad ⟨.returned none,none,n⟩
  | signalled (n : ℕ) (child : Child) (h : foad=true) :
    Unanswered foad ⟨.signalled,some child,n⟩

section Unanswered

variable {inetNtop : AddressFamily→ In6Addr→List Char}
  {gethostbyaddr : List UInt8→Option (List Char)} {around : Surroundings} {c c' : Caller}
  {child child' : Child} {k : ℕ}

/-- A child that reads too little, or nothing, exits. -/
theorem workerRead_short (h : workerRead gethostbyaddr around k child=some child')
    (hlen : child.requests.length≤ sizeofIn6Addr) :
    child.pc=.reading ∧ (child.requests=[]→around.foad=true) ∧
      child'={child with pc := .exited,requests := child.requests.drop k} := by
  unfold workerRead at h
  by_cases hpc : child.pc=.reading
  · rw [if_neg (not_not.mpr hpc)] at h
    split at h
    · -- the interrupted read
      rename_i hk
      subst hk
      split at h
      · rename_i hfoad
        exact ⟨hpc,fun _ => hfoad,(Option.some.inj h).symm⟩
      · cases h
    · rename_i hpos
      split at h
      · rename_i hk
        have hmin := hk.trans (min_le_right _ _)
        have hshort : k≠ sizeofAddrStorage := by
          simp only [sizeofIn6Addr,sizeofAddrStorage] at hlen ⊢
          omega
        have hsome : child.requests≠[] := by
          intro hnil
          rw [hnil,List.length_nil] at hmin
          omega
        rw [if_neg hshort] at h
        exact ⟨hpc,fun hnil => absurd hnil hsome,(Option.some.inj h).symm⟩
      · cases h
  · rw [if_pos hpc] at h
    cases h

/-- A request has the bytes that the write has sent. -/
theorem length_request (addr : AddrStorage) (hk : k≤ sizeofIn6Addr) :
    (((memory addr).take sizeofIn6Addr).take k).length=k := by
  simp only [List.length_take,length_memory,sizeofIn6Addr,sizeofAddrStorage] at hk ⊢
  omega

/-- What a system call does to a thread: it stays unanswered and comes nearer to the end of its
call. -/
def Advances (foad : Bool) (c c' : Caller) : Prop := Unanswered foad c' ∧ rank c'< rank c

/-- A call that makes a pair of sockets comes nearer to its end. -/
theorem Unanswered.socketpair {foad : Bool} (h : Unanswered foad c) {ok : Bool}
    (ha : callSocketpair ok c=some c') : Advances foad c c' := by
  cases h with
  | called addr n =>
    cases ok with
    | true =>
      obtain rfl := Option.some.inj ha
      exact ⟨.paired addr _,by simp [rank]⟩
    | false =>
      obtain rfl := Option.some.inj ha
      exact ⟨.returned n,by simp [rank]⟩
  | _ => exact absurd ha (Option.some_ne_none _).symm

/-- A call whose child is born comes nearer to its end. -/
theorem Unanswered.fork {foad : Bool} (h : Unanswered foad c) {ok : Bool}
    (ha : callFork around ok c=some c') : Advances foad c c' := by
  cases h with
  | paired addr n =>
    cases ok with
    | true =>
      obtain rfl := Option.some.inj ha
      exact ⟨.forked addr n _ (.inl rfl),by simp [rank]⟩
    | false =>
      obtain rfl := Option.some.inj ha
      exact ⟨.returned n,by simp [rank]⟩
  | _ => exact absurd ha (Option.some_ne_none _).symm

/-- A call that closes the end of the child comes nearer to its end. -/
theorem Unanswered.close {foad : Bool} (h : Unanswered foad c) (ha : callClose c=some c') :
    Advances foad c c' := by
  cases h with
  | forked addr n i hw =>
    obtain rfl := Option.some.inj ha
    exact ⟨.writing addr n i hw,by simp [rank]⟩
  | _ => exact absurd ha (Option.some_ne_none _).symm

/-- A call that writes its request comes nearer to its end. Nobody is left to read it only if the
child was interrupted. -/
theorem Unanswered.write (h : Unanswered around.foad c)
    (hopen : c.child.any Child.alive=true→around.endOpen=true)
    (ha : callWrite sizeofIn6Addr around k c=some c') : Advances around.foad c c' := by
  cases h with
  | @writing addr n pc i hw =>
    unfold callWrite at ha
    dsimp only at ha
    split at ha
    · rename_i hclosed
      have hexited : pc=.exited := by
        by_contra hne
        have hyes := hopen (decide_eq_true hne)
        rw [hclosed] at hyes
        cases hyes
      obtain rfl := Option.some.inj ha
      subst hexited
      rcases hw with hno|⟨-,hfoad⟩
      · cases hno
      · exact ⟨.signalled n _ hfoad,by simp [rank]⟩
    · split at ha
      · rename_i hk
        have hlen := length_request addr hk
        obtain rfl := Option.some.inj ha
        rw [List.nil_append]
        rcases hw with rfl|⟨rfl,-⟩
        · by_cases hall : k=sizeofIn6Addr
          · rw [if_pos hall]
            exact ⟨.reading n i (hlen.trans hall),by simp [rank]⟩
          · rw [if_neg hall]
            exact ⟨.failing n i (hlen.trans_le hk),by simp [rank]⟩
        · by_cases hall : k=sizeofIn6Addr
          · rw [if_pos hall]
            exact ⟨.ended n _ i,by simp [rank]⟩
          · rw [if_neg hall]
            exact ⟨.dead n _ i,by simp [rank]⟩
      · exact absurd ha (Option.some_ne_none _).symm
  | _ => exact absurd ha (Option.some_ne_none _).symm

/-- A call that reads gets no bytes, and comes nearer to its end. -/
theorem Unanswered.read {foad : Bool} (h : Unanswered foad c)
    (ha : callRead around k c=some c') : Advances foad c c' := by
  cases h with
  | @reading n requests i hlen =>
    unfold callRead at ha
    dsimp only at ha
    split at ha
    · split at ha
      · obtain rfl := Option.some.inj ha
        exact ⟨.failing n i hlen.le,by simp [rank]⟩
      · exact absurd ha (Option.some_ne_none _).symm
    · exact absurd ha (by simp_all)
  | ended n requests i =>
    unfold callRead at ha
    dsimp only at ha
    split at ha
    · split at ha
      · obtain rfl := Option.some.inj ha
        exact ⟨.dead n requests i,by simp [rank]⟩
      · exact absurd ha (Option.some_ne_none _).symm
    · exact absurd ha (by simp_all)
  | _ => exact absurd ha (Option.some_ne_none _).symm

/-- A call that gives its child up comes nearer to its end. -/
theorem Unanswered.kill {foad : Bool} (h : Unanswered foad c) (ha : callKill c=some c') :
    Advances foad c c' := by
  cases h with
  | failing n i hlen =>
    obtain rfl := Option.some.inj ha
    exact ⟨.returned n,by simp [rank]⟩
  | dead n requests i =>
    obtain rfl := Option.some.inj ha
    exact ⟨.returned n,by simp [rank]⟩
  | _ => exact absurd ha (Option.some_ne_none _).symm

/-- A child that reads exits, which brings the call nearer to its end. -/
theorem Unanswered.childRead (h : Unanswered around.foad c) (halive : c.pc.dead=false)
    (hc : c.child=some child) (ha : workerRead gethostbyaddr around k child=some child') :
    Advances around.foad c {c with child := some child'} := by
  cases h with
  | @forked addr n pc i hw =>
    obtain rfl := Option.some.inj hc
    obtain ⟨hpc,hfoad,rfl⟩ := workerRead_short ha (Nat.zero_le _)
    dsimp only at hpc
    subst hpc
    rw [List.drop_nil]
    exact ⟨.forked addr n i (.inr ⟨rfl,hfoad rfl⟩),by simp [rank]⟩
  | @writing addr n pc i hw =>
    obtain rfl := Option.some.inj hc
    obtain ⟨hpc,hfoad,rfl⟩ := workerRead_short ha (Nat.zero_le _)
    dsimp only at hpc
    subst hpc
    rw [List.drop_nil]
    exact ⟨.writing addr n i (.inr ⟨rfl,hfoad rfl⟩),by simp [rank]⟩
  | @reading n requests i hlen =>
    obtain rfl := Option.some.inj hc
    obtain ⟨-,-,rfl⟩ := workerRead_short ha hlen.le
    exact ⟨.ended n _ i,by simp [rank]⟩
  | @failing n requests i hlen =>
    obtain rfl := Option.some.inj hc
    obtain ⟨-,-,rfl⟩ := workerRead_short ha hlen
    exact ⟨.dead n _ i,by simp [rank]⟩
  | ended n requests i =>
    obtain rfl := Option.some.inj hc
    exact absurd ha (by simp [workerRead])
  | dead n requests i =>
    obtain rfl := Option.some.inj hc
    exact absurd ha (by simp [workerRead])
  | signalled => cases halive
  | _ => exact absurd hc (Option.some_ne_none _).symm

/-- A child that waits for a request has nothing to write. -/
theorem Unanswered.childWrite {foad : Bool} (h : Unanswered foad c) (halive : c.pc.dead=false)
    (hc : c.child=some child) : workerWrite k child=none := by
  have hwaiting {pc : ChildPc} (hw : Waiting foad pc) (i : Option ℕ) :
      workerWrite k ⟨pc,[],[],i⟩=none := by
    rcases hw with rfl|⟨rfl,-⟩ <;> rfl
  cases h with
  | forked addr n i hw =>
    obtain rfl := Option.some.inj hc
    exact hwaiting hw i
  | writing addr n i hw =>
    obtain rfl := Option.some.inj hc
    exact hwaiting hw i
  | reading => obtain rfl := Option.some.inj hc; rfl
  | ended => obtain rfl := Option.some.inj hc; rfl
  | failing => obtain rfl := Option.some.inj hc; rfl
  | dead => obtain rfl := Option.some.inj hc; rfl
  | signalled => cases halive
  | _ => exact absurd hc (Option.some_ne_none _).symm

/-- Every system call leads on to such a thread, and nearer to the end of the call. -/
theorem Unanswered.next (h : Unanswered around.foad c) (halive : c.pc.dead=false)
    (hopen : c.child.any Child.alive=true→around.endOpen=true) {a : CallerAct}
    (ha : nextCaller sizeofIn6Addr gethostbyaddr around c a=some c') :
    Advances around.foad c c' := by
  cases a with
  | socketpair ok => exact h.socketpair ha
  | fork ok => exact h.fork ha
  | close => exact h.close ha
  | write k => exact h.write hopen ha
  | read k => exact h.read ha
  | kill => exact h.kill ha
  | childRead k =>
    obtain ⟨child,hc,hm⟩ := Option.bind_eq_some_iff.mp ha
    obtain ⟨child',hw,rfl⟩ := Option.map_eq_some_iff.mp hm
    exact h.childRead halive hc hw
  | childWrite k =>
    obtain ⟨child,hc,hm⟩ := Option.bind_eq_some_iff.mp ha
    rw [h.childWrite halive hc] at hm
    exact absurd hm (Option.some_ne_none _).symm

/-- A thread can go on by itself. -/
def CanMove (gethostbyaddr : List UInt8→Option (List Char)) (around : Surroundings)
    (c : Caller) : Prop :=
  (∃ name,c.pc=.returned name) ∨
    ∃ a c',nextCaller sizeofIn6Addr gethostbyaddr around c a=some c'

/-- A thread that waits for the end of the stream. -/
def AwaitsEnd (c : Caller) : Prop := c.pc=.reading ∧ c.child.any Child.alive=false

/-- A child that has a whole request reads it. -/
theorem canMove_childRead {n : ℕ} {requests : List UInt8} {i : Option ℕ}
    (hlen : requests.length=sizeofIn6Addr) :
    CanMove gethostbyaddr around ⟨.reading,some ⟨.reading,requests,[],i⟩,n⟩ := by
  have hk : sizeofIn6Addr≤ min sizeofAddrStorage requests.length := by
    rw [hlen]
    decide
  have hread : workerRead gethostbyaddr around sizeofIn6Addr ⟨.reading,requests,[],i⟩=
      some ⟨.exited,requests.drop sizeofIn6Addr,[],i⟩ := by
    have hpos : ¬sizeofIn6Addr=0 := by decide
    have hshort : ¬sizeofIn6Addr=sizeofAddrStorage := by decide
    unfold workerRead
    rw [if_neg (not_not.mpr rfl),if_neg hpos,if_pos hk,if_neg hshort]
  refine .inr ⟨.childRead sizeofIn6Addr,
    ⟨.reading,some ⟨.exited,requests.drop sizeofIn6Addr,[],i⟩,n⟩,?_⟩
  unfold nextCaller
  dsimp only
  rw [Option.bind_some,hread]
  rfl

/-- A call that is under way can go on, unless it waits for the end of the stream. -/
theorem Unanswered.moves {foad : Bool} (h : Unanswered foad c) (hidle : c.pc≠.idle)
    (halive : c.pc.dead=false) : CanMove gethostbyaddr around c ∨ AwaitsEnd c := by
  have hwrite (addr : AddrStorage) (n : ℕ) (child : Child) :
      CanMove gethostbyaddr around ⟨.writing addr,some child,n⟩ := by
    by_cases ho : around.endOpen=false
    · exact .inr ⟨.write sizeofIn6Addr,_,if_pos ho⟩
    · exact .inr ⟨.write sizeofIn6Addr,_,(if_neg ho).trans (if_pos (le_refl _))⟩
  cases h with
  | idle => exact absurd rfl hidle
  | called addr n => exact .inl (.inr ⟨.socketpair true,_,rfl⟩)
  | paired addr n => exact .inl (.inr ⟨.fork true,_,rfl⟩)
  | forked addr n i hw => exact .inl (.inr ⟨.close,_,rfl⟩)
  | writing addr n i hw => exact .inl (hwrite addr n _)
  | reading n i hlen => exact .inl (canMove_childRead hlen)
  | ended n requests i => exact .inr ⟨rfl,rfl⟩
  | failing n i hlen => exact .inl (.inr ⟨.kill,_,rfl⟩)
  | dead n requests i => exact .inl (.inr ⟨.kill,_,rfl⟩)
  | returned n => exact .inl (.inl ⟨none,rfl⟩)
  | signalled => cases halive

/-- A call that waits can read the end of the stream when nobody holds the other end. -/
theorem Unanswered.readsEnd {foad : Bool} (h : Unanswered foad c) (he : AwaitsEnd c)
    (hclosed : around.endOpen=false) : CanMove gethostbyaddr around c := by
  obtain ⟨hpc,hchild⟩ := he
  cases h with
  | reading => exact absurd hchild (by simp [Child.alive])
  | ended n requests i =>
    refine .inr ⟨.read 0,⟨.failing,some ⟨.exited,requests,[],i⟩,n⟩,?_⟩
    unfold nextCaller callRead
    dsimp only
    rw [if_pos rfl,if_pos (.inl ⟨hclosed,rfl⟩)]
  | _ => cases hpc

/-- A thread with a child is in a call. -/
theorem Unanswered.not_idle {foad : Bool} (h : Unanswered foad c)
    (hc : c.child.any Child.alive=true) : c.pc≠.idle := by
  intro hidle
  cases h with
  | idle => cases hc
  | _ => cases hidle

/-- An interrupt changes nothing for a thread. -/
theorem Unanswered.interrupt {foad : Bool} (h : Unanswered foad c) : Unanswered true c := by
  have hw {pc : ChildPc} (hw : Waiting foad pc) : Waiting true pc := hw.imp_right fun h => ⟨h.1,rfl⟩
  cases h with
  | idle n => exact .idle n
  | called addr n => exact .called addr n
  | paired addr n => exact .paired addr n
  | forked addr n i h => exact .forked addr n i (hw h)
  | writing addr n i h => exact .writing addr n i (hw h)
  | reading n i h => exact .reading n i h
  | ended n requests i => exact .ended n requests i
  | failing n i h => exact .failing n i h
  | dead n requests i => exact .dead n requests i
  | returned n => exact .returned n
  | signalled n child h => exact .signalled n child rfl

/-- No name has come back, and none is on its way. -/
structure Numeric (inetNtop : AddressFamily→ In6Addr→List Char) (s : Resolving) : Prop where
  /-- The cache and the queue are in order. -/
  cache : ∃ waiting,Inv inetNtop s.system waiting
  /-- No name has come back. -/
  answers : s.system.answers=[]
  /-- The requests of both threads are too short. -/
  callers : ∀ w,Unanswered s.foad (s.callers w)

variable {s s' : Resolving}

/-- The child of a thread holds its own end. -/
theorem endOpen_of_alive {callers : Fin 2→Caller} {w : Fin 2}
    (h : (callers w).child.any Child.alive=true) : endOpen callers w=true := by
  rw [endOpen,h,Bool.or_true,Bool.true_or]

/-- While the program runs, no thread has had a signal. -/
theorem not_dead (h : s.ended=false) (w : Fin 2) : (s.callers w).pc.dead=false := by
  by_contra hdead
  have hended : s.ended=true := decide_eq_true ⟨w,by simpa using hdead⟩
  rw [h] at hended
  cases hended

/-- If one thread changes and is still unanswered, both are. -/
theorem unanswered_update {foad : Bool} {callers : Fin 2→Caller}
    (h : ∀ w,Unanswered foad (callers w)) (w : Fin 2) (hc : Unanswered foad c) :
    ∀ w',Unanswered foad (Function.update callers w c w') := by
  intro w'
  by_cases hw : w'=w
  · rw [hw,Function.update_self]
    exact hc
  · rw [Function.update_of_ne hw]
    exact h w'

/-- Nothing is an answer except a name. -/
theorem answers_step (system : System) (e : Step) (he : ∀ w name,e≠.store w (some name)) :
    (stepSystem inetNtop system e).answers=system.answers := by
  cases e with
  | resolve o af addr buflen => rfl
  | take w =>
    unfold stepSystem
    dsimp only
    split
    · split <;> rfl
    · rfl
  | store w hostname =>
    cases hostname with
    | some name => exact absurd rfl (he w name)
    | none =>
      unfold stepSystem
      dsimp only
      split
      · rfl
      · exact List.append_nil _

/-- What the system calls of a thread do. -/
theorem Numeric.advances (h : Numeric inetNtop s) (hrun : s.ended=false) (w : Fin 2)
    {a : CallerAct}
    (ha : nextCaller sizeofIn6Addr gethostbyaddr (surroundings s w) (s.callers w) a=some c') :
    Advances s.foad (s.callers w) c' := by
  have hc : Unanswered (surroundings s w).foad (s.callers w) := h.callers w
  exact hc.next (not_dead hrun w) endOpen_of_alive ha

/-- What an action does, and when it is possible: the program runs, and the thread is at the
system call, before it takes an address or after it has returned from `do_resolve`. -/
theorem next_eq {size : ℕ} {a : Action} (ha : next size inetNtop gethostbyaddr s a=some s') :
    s.ended=false ∧ match a with
      | .resolve o af addr buflen =>
        s'={s with system := stepSystem inetNtop s.system (.resolve o af addr buflen)}
      | .take w => ∃ addr,(s.callers w).pc=.idle ∧ s'={s with
          system := stepSystem inetNtop s.system (.take w)
          callers := Function.update s.callers w {s.callers w with pc := .called addr}}
      | .caller w a =>
        ∃ c,nextCaller size gethostbyaddr (surroundings s w) (s.callers w) a=some c ∧
          s'={s with callers := Function.update s.callers w c}
      | .store w => ∃ name,(s.callers w).pc=.returned name ∧ s'={s with
          system := stepSystem inetNtop s.system (.store w name)
          callers := Function.update s.callers w {s.callers w with pc := .idle}}
      | .interrupt => s'={s with foad := true} := by
  unfold next at ha
  cases hrun : s.ended with
  | true =>
    rw [hrun,if_pos rfl] at ha
    exact absurd ha (Option.some_ne_none _).symm
  | false =>
    rw [hrun,if_neg Bool.false_ne_true] at ha
    refine ⟨rfl,?_⟩
    cases a with
    | resolve o af addr buflen => exact (Option.some.inj ha).symm
    | take w =>
      dsimp only at ha ⊢
      split at ha
      · rename_i addr hpc hworker
        exact ⟨addr,hpc,(Option.some.inj ha).symm⟩
      · exact absurd ha (Option.some_ne_none _).symm
    | caller w a =>
      obtain ⟨c,hc,hs⟩ := Option.map_eq_some_iff.mp ha
      exact ⟨c,hc,hs.symm⟩
    | store w =>
      dsimp only at ha ⊢
      split at ha
      · rename_i name hpc
        exact ⟨name,hpc,(Option.some.inj ha).symm⟩
      · exact absurd ha (Option.some_ne_none _).symm
    | interrupt => exact (Option.some.inj ha).symm

/-- A thread that takes an address has no child yet, and its request will be too short. -/
theorem Unanswered.take {foad : Bool} (h : Unanswered foad c) (hpc : c.pc=.idle)
    (addr : AddrStorage) : Unanswered foad {c with pc := .called addr} := by
  cases h with
  | idle n => exact .called addr n
  | _ => exact absurd hpc CallerPc.noConfusion

/-- A thread that stores what `do_resolve` has returned stores no name. -/
theorem Unanswered.store {foad : Bool} (h : Unanswered foad c) {name : Option (List Char)}
    (hpc : c.pc=.returned name) : name=none ∧ Unanswered foad {c with pc := .idle} := by
  cases h with
  | returned n => exact ⟨(CallerPc.returned.inj hpc).symm,.idle n⟩
  | _ => exact absurd hpc CallerPc.noConfusion

/-- Every action keeps the texts numeric. -/
theorem Numeric.next (h : Numeric inetNtop s) {a : Action}
    (ha : next sizeofIn6Addr inetNtop gethostbyaddr s a=some s') : Numeric inetNtop s' := by
  obtain ⟨waiting,hw⟩ := h.cache
  obtain ⟨hrun,hs⟩ := next_eq ha
  cases a with
  | resolve o af addr buflen =>
    dsimp only at hs
    subst hs
    exact ⟨step_inv hw (.resolve o af addr buflen),
      (answers_step s.system _ fun _ _ => Step.noConfusion).trans h.answers,h.callers⟩
  | take w =>
    obtain ⟨addr,hpc,rfl⟩ := hs
    exact ⟨step_inv hw (.take w),
      (answers_step s.system _ fun _ _ => Step.noConfusion).trans h.answers,
      unanswered_update h.callers w ((h.callers w).take hpc addr)⟩
  | caller w a =>
    obtain ⟨c,hc,rfl⟩ := hs
    exact ⟨⟨waiting,hw⟩,h.answers,unanswered_update h.callers w (h.advances hrun w hc).1⟩
  | store w =>
    obtain ⟨name,hpc,rfl⟩ := hs
    obtain ⟨rfl,hidle⟩ := (h.callers w).store hpc
    have hnone : ∀ w' name,Step.store w none≠.store w' (some name) := by
      intro w' name heq
      exact absurd (Step.store.inj heq).2 (Option.some_ne_none _).symm
    have hanswers : (stepSystem inetNtop s.system (.store w none)).answers=[] :=
      (answers_step s.system _ hnone).trans h.answers
    exact ⟨step_inv hw (.store w none),hanswers,unanswered_update h.callers w hidle⟩
  | interrupt =>
    dsimp only at hs
    subst hs
    exact ⟨⟨waiting,hw⟩,h.answers,fun w => (h.callers w).interrupt⟩

/-- In every run the texts are numeric, since no name comes back. -/
theorem numeric_of_reaches
    (h : Reaches (ForkingResolver.next sizeofIn6Addr inetNtop gethostbyaddr) initResolving s) :
    Numeric inetNtop s :=
  h.invariant ⟨⟨[],init_inv⟩,rfl,fun _ => .idle 0⟩ fun _ _ _ hi _ ha => hi.next ha

/-- A text that is found in the cache is the record of a node with this address. -/
theorem exists_node {r : ResolverState} {raddr : AddrStorage} {hostname : List Char}
    (h : hashFind r.nsHash raddr=some hostname) :
    ∃ n∈r.nsHash.nodes,n.key=raddr ∧ n.record=hostname := by
  obtain ⟨n,hn,rfl⟩ := Option.map_eq_some_iff.mp h
  rw [find_eq] at hn
  have hcompare := List.find?_some hn
  exact ⟨n,List.mem_of_find?_eq_some hn,(nsHashCompare_iff _ _).mp hcompare,rfl⟩

/-- The text of an address is its number. -/
theorem Numeric.text (h : Numeric inetNtop s) {o : OptionsT} (ho : o.dnsresolution=true)
    (af : AddressFamily) (addr : In6Addr) (buflen : ℤ) :
    (resolve inetNtop o af addr buflen s.system.resolver).1=
      copyResult buflen (inetNtop af (AddrStorage.make af addr).addr) := by
  obtain ⟨waiting,hw⟩ := h.cache
  simp only [resolve,ho,if_true]
  congr 1
  unfold resolveLocked
  split
  · rename_i hostname hf
    obtain ⟨n,hm,hk,rfl⟩ := exists_node hf
    rcases hw.records n hm with hrecord|hanswer
    · rw [hrecord,hk]
      rfl
    · rw [h.answers] at hanswer
      exact absurd hanswer List.not_mem_nil
  · dsimp only
    split
    · rfl
    · split <;> rfl

/-- If a thread can go on, some action of it is possible. -/
theorem exists_action (hrun : s.ended=false) {w : Fin 2}
    (h : CanMove gethostbyaddr (surroundings s w) (s.callers w)) :
    ∃ a s',Moves w a ∧ ForkingResolver.next sizeofIn6Addr inetNtop gethostbyaddr s a=some s' := by
  rcases h with ⟨name,hret⟩|⟨a,c',ha⟩
  · refine ⟨.store w,{s with
      system := stepSystem inetNtop s.system (.store w name)
      callers := Function.update s.callers w {s.callers w with pc := .idle}},rfl,?_⟩
    unfold ForkingResolver.next
    rw [hrun,if_neg Bool.false_ne_true]
    dsimp only
    rw [hret]
  · refine ⟨.caller w a,{s with callers := Function.update s.callers w c'},rfl,?_⟩
    unfold ForkingResolver.next
    rw [hrun,if_neg Bool.false_ne_true]
    dsimp only
    rw [ha]
    rfl

/-- While a call is under way a thread can go on: the one of the call, or the other one for whose
child it waits. -/
theorem Numeric.moves (h : Numeric inetNtop s) (hrun : s.ended=false) {w : Fin 2}
    (hidle : (s.callers w).pc≠.idle) :
    ∃ w' a s',Moves w' a ∧ ForkingResolver.next sizeofIn6Addr inetNtop gethostbyaddr s a=some s' := by
  have hcan (w : Fin 2) : (s.callers w).pc≠.idle→
      CanMove gethostbyaddr (surroundings s w) (s.callers w) ∨ AwaitsEnd (s.callers w) :=
    fun hidle => (h.callers w).moves hidle (not_dead hrun w)
  rcases hcan w hidle with hmove|hend
  · exact ⟨w,exists_action hrun hmove⟩
  · by_cases hclosed : (surroundings s w).endOpen=false
    · exact ⟨w,exists_action hrun ((h.callers w).readsEnd hend hclosed)⟩
    · -- the other child holds the end, so the other thread does not wait for its own end
      have hother : (s.callers w.rev).child.any Child.alive=true := by
        have hopen : endOpen s.callers w=true := Bool.eq_true_of_not_eq_false hclosed
        rw [endOpen,hend.1,hend.2] at hopen
        simp only [CallerPc.holdsEnd,Bool.false_or] at hopen
        cases hc : (s.callers w.rev).child with
        | none => simp [hc] at hopen
        | some child =>
          rw [hc,Option.any_some,Bool.and_eq_true] at hopen
          exact hopen.1
      rcases hcan w.rev ((h.callers w.rev).not_idle hother) with hmove|hend'
      · exact ⟨w.rev,exists_action hrun hmove⟩
      · rw [hend'.2] at hother
        cases hother

/-- A step of a call brings it nearer to its end and changes no other thread. -/
theorem Numeric.rank_lt (h : Numeric inetNtop s) {w : Fin 2} {a : Action} (hm : Moves w a)
    (ha : ForkingResolver.next sizeofIn6Addr inetNtop gethostbyaddr s a=some s') :
    rank (s'.callers w)< rank (s.callers w) ∧ ∀ w',w'≠ w→s'.callers w'=s.callers w' := by
  obtain ⟨hrun,hs⟩ := next_eq ha
  have hothers (c : Caller) : ∀ w',w'≠ w→Function.update s.callers w c w'=s.callers w' :=
    fun w' hw => Function.update_of_ne hw _ _
  cases a with
  | resolve o af addr buflen => exact hm.elim
  | take w' => exact hm.elim
  | interrupt => exact hm.elim
  | caller w' a =>
    obtain rfl : w'=w := hm
    obtain ⟨c,hc,rfl⟩ := hs
    dsimp only
    rw [Function.update_self]
    exact ⟨(h.advances hrun _ hc).2,hothers c⟩
  | store w' =>
    obtain rfl : w'=w := hm
    obtain ⟨name,hpc,rfl⟩ := hs
    dsimp only
    rw [Function.update_self]
    refine ⟨?_,hothers _⟩
    simp only [rank,hpc]
    omega

end Unanswered

/-- With the resolver that forks, however the two threads, their children, the callers of `resolve`
and an interrupt are scheduled, every text is the number of its address: no name is ever found.
`SIGPIPE` comes after an interrupt only. No call hangs: while one is under way some thread or
child can go on, and every such step brings its call nearer to the end. -/
theorem forking_resolver (inetNtop : AddressFamily→ In6Addr→List Char)
    (gethostbyaddr : List UInt8→Option (List Char)) {s : Resolving}
    (h : Reaches (next sizeofIn6Addr inetNtop gethostbyaddr) initResolving s) :
    (∀ o af addr buflen,o.dnsresolution=true→
      (resolve inetNtop o af addr buflen s.system.resolver).1=
        copyResult buflen (inetNtop af (AddrStorage.make af addr).addr)) ∧
    (s.ended=true→s.foad=true) ∧
    (s.ended=false→∀ w,(s.callers w).pc≠.idle→ ∃ w' a s',Moves w' a ∧
      next sizeofIn6Addr inetNtop gethostbyaddr s a=some s') ∧
    ∀ w a s',Moves w a→next sizeofIn6Addr inetNtop gethostbyaddr s a=some s'→
      rank (s'.callers w)< rank (s.callers w) ∧ ∀ w',w'≠ w→s'.callers w'=s.callers w' := by
  have hn := numeric_of_reaches h
  refine ⟨fun o af addr buflen ho => hn.text ho af addr buflen,fun hended => ?_,
    fun hrun w hidle => hn.moves hrun hidle,fun w a s' hm ha => hn.rank_lt hm ha⟩
  obtain ⟨w,hdead⟩ := of_decide_eq_true hended
  have hc := hn.callers w
  generalize s.callers w=c at hc hdead
  cases hc with
  | signalled n child hfoad => exact hfoad
  | _ => cases hdead

/-- The first thread. -/
def firstThread : Fin 2 := ⟨0,by decide⟩

/-- The other thread. -/
def secondThread : Fin 2 := ⟨1,by decide⟩

/-- Two addresses. The second child is born while the first one's end is open in the program, and
the first thread waits for it too. -/
def twoCalls : List Action :=
  let o : OptionsT := {optionsSetDefaults with dnsresolution := true}
  [.resolve o .inet (in6OfIn ![10,0,0,9]) 16,.resolve o .inet (in6OfIn ![10,0,0,8]) 16,
    .take firstThread,.take secondThread,.caller firstThread (.socketpair true),
    .caller firstThread (.fork true),.caller secondThread (.socketpair true),
    .caller secondThread (.fork true),.caller firstThread .close,.caller secondThread .close,
    .caller firstThread (.write sizeofIn6Addr),.caller firstThread (.childRead sizeofIn6Addr)]

/-- The rest of these calls. -/
def twoCallsEnd : List Action :=
  [.caller secondThread (.write sizeofIn6Addr),.caller secondThread (.childRead sizeofIn6Addr),
    .caller firstThread (.read 0),.caller firstThread .kill,.store firstThread,
    .caller secondThread (.read 0),.caller secondThread .kill,.store secondThread]

/-- An interrupt while a child waits for its first request. -/
def interrupted : List Action :=
  [.resolve {optionsSetDefaults with dnsresolution := true} .inet (in6OfIn ![10,0,0,9]) 16,
    .take firstThread,.caller firstThread (.socketpair true),.caller firstThread (.fork true),
    .caller firstThread .close,.interrupt,.caller firstThread (.childRead 0),
    .caller firstThread (.write sizeofIn6Addr)]

/-- After the two calls the text is still the number of the address. In between the first thread
could not read the end of its stream. After the interrupt the program is ended. -/
theorem forking_resolver_call :
    let numbers : AddressFamily→ In6Addr→List Char := fun _ _ => "10.0.0.9".toList
    let names : List UInt8→Option (List Char) := fun _ => some "host".toList
    (∃ s,twoCalls.foldlM (next sizeofIn6Addr numbers names) initResolving=some s ∧
      next sizeofIn6Addr numbers names s (.caller firstThread (.read 0))=none ∧
      ∃ w' a s',Moves w' a ∧ next sizeofIn6Addr numbers names s a=some s') ∧
    (∃ s,(twoCalls++twoCallsEnd).foldlM (next sizeofIn6Addr numbers names) initResolving=some s ∧
      (resolve numbers {optionsSetDefaults with dnsresolution := true} .inet
        (in6OfIn ![10,0,0,9]) 16 s.system.resolver).1=some "10.0.0.9".toList) ∧
    ∃ s,interrupted.foldlM (next sizeofIn6Addr numbers names) initResolving=some s ∧
      s.ended=true ∧ s.foad=true := by
  intro numbers names
  refine ⟨?_,?_,?_⟩
  · have hsome : (twoCalls.foldlM (next sizeofIn6Addr numbers names) initResolving).any
        (fun s => (next sizeofIn6Addr numbers names s (.caller firstThread (.read 0))).isNone &&
          (!s.ended && !(s.callers firstThread).pc.isIdle))=true := by
      decide
    obtain ⟨s,hs,hstuck⟩ := (Option.any_eq_true _ _).mp hsome
    simp only [Bool.and_eq_true,Bool.not_eq_true'] at hstuck
    obtain ⟨hread,hrun,hbusy⟩ := hstuck
    have hidle : (s.callers firstThread).pc≠.idle := by
      intro hidle
      rw [hidle] at hbusy
      cases hbusy
    exact ⟨s,hs,Option.isNone_iff_eq_none.mp hread,
      (forking_resolver numbers names (.of_foldlM hs)).2.2.1 hrun firstThread hidle⟩
  · have hsome : ((twoCalls++twoCallsEnd).foldlM (next sizeofIn6Addr numbers names)
        initResolving).isSome=true := by
      decide
    obtain ⟨s,hs⟩ := Option.isSome_iff_exists.mp hsome
    exact ⟨s,hs,(forking_resolver numbers names (.of_foldlM hs)).1 _ _ _ _ rfl⟩
  · have hsome : (interrupted.foldlM (next sizeofIn6Addr numbers names) initResolving).any
        Resolving.ended=true := by
      decide
    obtain ⟨s,hs,hended⟩ := (Option.any_eq_true _ _).mp hsome
    exact ⟨s,hs,hended,(forking_resolver numbers names (.of_foldlM hs)).2.1 hended⟩

/-- With requests of the size that the child reads, a call could return the name of its address as
long as the child's end is open. -/
theorem answered (gethostbyaddr : List UInt8→Option (List Char)) (addr : AddrStorage) (n : ℕ)
    (otherPair : Option ℕ) (foad : Bool) :
    [CallerAct.socketpair true,.fork true,.close,.write sizeofAddrStorage,
        .childRead sizeofAddrStorage,.childWrite namesize,.read namesize].foldlM
          (nextCaller sizeofAddrStorage gethostbyaddr ⟨true,otherPair,foad⟩) ⟨.called addr,none,n⟩=
      some ⟨.returned (nameOf (nameBuffer (gethostbyaddr (memory addr)))),
        some ⟨.reading,[],[],otherPair⟩,n+1⟩ := by
  have hbuf (he : Option (List Char)) : (nameBuffer he).length=namesize := by
    simp [nameBuffer,List.rightpad,namesize]
  have htake (he : Option (List Char)) : (nameBuffer he).take namesize=nameBuffer he :=
    List.take_of_length_le (hbuf he).le
  have hdrop (he : Option (List Char)) : (nameBuffer he).drop namesize=[] :=
    List.drop_of_length_le (hbuf he).le
  have hread : (memory addr).take sizeofAddrStorage=memory addr :=
    List.take_of_length_le (length_memory addr).le
  have hrest : (memory addr).drop sizeofAddrStorage=[] :=
    List.drop_of_length_le (length_memory addr).le
  have hpos : sizeofAddrStorage≠0 ∧ namesize≠0 := by decide
  simp [nextCaller,callSocketpair,callFork,callClose,callWrite,workerRead,workerWrite,callRead,
    hread,hrest,htake,hdrop,hbuf,length_memory,hpos]

end IftopColor.ForkingResolver
