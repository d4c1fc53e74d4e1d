import IftopColor.TextEdit
import Mathlib.Tactic.Linarith

/-!
# The line editor

`edline` keeps the text that is typed in a block that is doubled when it is full. Every key
edits the text as in an editor with a cursor, and every access stays in the block. The
size of the block is an int: of a text that is too long for it the double is negative and
no block is to be had, as long as the text has less than two gigabytes. Every text that
the program edits has: it comes from the command line, from a line of the configuration
or from an earlier line of the editor, which fits into a block itself.
-/

namespace IftopColor.Edline

open TextBuffer TextEdit

/-- Why `edline` does not go on. -/
inductive Stop where
  /-- An access outside of the block. -/
  | fault (f : Fault)
  /-- An allocation failed. -/
  | abort
  deriving DecidableEq

/-- Accesses to the block. -/
def checked {α : Type} : Except Fault α→Except Stop α := Except.mapError .fault

/-- A C string. -/
abbrev CStr := {text : List Char // nul∉text}

/-- An int that a larger number is stored in. -/
def toInt (n : ℤ) : ℤ := n.bmod (2^32)

/-- `KEY_DL`. -/
def keyDl : ℤ := 0o510

/-- `KEY_LEFT`. -/
def keyLeft : ℤ := 0o404

/-- `KEY_RIGHT`. -/
def keyRight : ℤ := 0o405

/-- `KEY_HOME`. -/
def keyHome : ℤ := 0o406

/-- `KEY_END`. -/
def keyEnd : ℤ := 0o550

/-- `KEY_DC`. -/
def keyDc : ℤ := 0o512

/-- `KEY_BACKSPACE`. -/
def keyBackspace : ℤ := 0o407

/-- `KEY_ENTER`. -/
def keyEnter : ℤ := 0o527

/-- `ERR`. -/
def err : ℤ := -1

/-- `isprint`, for characters of a locale that has no more of them than ASCII; a key is none. -/
def isprint (c : ℤ) : Bool := decide (32≤ c ∧ c≤126)

/-- Variables of `edline`. -/
structure Line where
  /-- What `str` points to. -/
  str : Buffer
  /-- `slen`. -/
  slen : ℤ
  /-- `pos`. -/
  pos : ℤ

/-- Size of the block. -/
abbrev Line.size (line : Line) : ℕ := line.slen.toNat

/-- `xmalloc` or `xrealloc` of a number of bytes; a negative int is a size that is refused. -/
def allocate (slen : ℤ) : Except Stop Unit := if slen<0 then .error .abort else .ok ()

/-- A block of `slen` bytes with a text; before that it holds `junk`. -/
def newText (junk : Buffer) (slen : ℤ) (text : List Char) : Except Stop (Buffer×ℤ) := do
  allocate slen
  let str ← checked (store slen.toNat junk 0 text)
  return (str,slen)

/-- The first block with its size. -/
def firstBlock (junk : Buffer) : Option CStr→Except Stop (Buffer×ℤ)
  | some text => newText junk (toInt (text.1.length*2+1)) text.1
  | none => newText junk 256 []

/-- The part of `edline` before its loop. -/
def start (junk : Buffer) (initial : Option CStr) : Except Stop Line := do
  let (str,slen) ← firstBlock junk initial
  let pos ← checked (strlen slen.toNat str 0)
  return ⟨str,slen,pos⟩

/-- A loop of `^W`: from index `i` down to a character at which it stops, but not below zero. -/
def scanBack (size : ℕ) (stop : Char→Bool) (str : Buffer) : ℕ→Except Fault ℕ
  | 0 => .ok 0
  | i+1 => do
    let c ← get size str (i+1 : ℕ)
    if stop c then .ok (i+1) else scanBack size stop str i

/-- `^W`. -/
def eraseWord (line : Line) : Except Fault Line := do
  let i ← scanBack line.size (fun c => !isspace c) line.str line.pos.toNat
  let i ← scanBack line.size isspace line.str i
  if (i : ℤ)≠line.pos then
    let len ← strlen line.size line.str line.pos
    let str ← memmove line.size line.str i line.pos (len+1)
    return {line with str := str,pos := i}
  else return line

/-- The block is doubled if a text of length `len` fills it. -/
def grow (junk : Buffer) (len : ℤ) (line : Line) : Except Stop Line :=
  if len=line.slen-1 then do
    let slen := toInt (line.slen*2)
    allocate slen
    return {line with str := fun k => if k<line.size then line.str k else junk k,slen := slen}
  else return line

/-- A character that is typed. -/
def insertChar (junk : Buffer) (c : ℤ) (line : Line) : Except Stop Line := do
  let len ← checked (strlen line.size line.str 0)
  let line ← grow junk len line
  let rest ← checked (strlen line.size line.str line.pos)
  let str ← checked (memmove line.size line.str (line.pos+1) line.pos (rest+1))
  let str ← checked (put line.size str line.pos (Char.ofNat c.toNat))
  return {line with str := str,pos := line.pos+1}

/-- One turn of the loop; a block that grows holds `junk` behind the old one. The line is then
displayed, which changes none of the variables. -/
def press (junk : Buffer) (c : ℤ) (line : Line) : Except Stop Line :=
  if c=keyDl ∨ c=21 then do
    let str ← checked (put line.size line.str 0 nul)
    return {line with str := str,pos := 0}
  else if c=keyLeft then
    return {line with pos := if line.pos-1<0 then 0 else line.pos-1}
  else if c=keyRight then do
    let len ← checked (strlen line.size line.str 0)
    return {line with pos := if line.pos+1>len then len else line.pos+1}
  else if c=keyHome ∨ c=1 then
    return {line with pos := 0}
  else if c=keyEnd ∨ c=5 then do
    let len ← checked (strlen line.size line.str 0)
    return {line with pos := len}
  else if c=keyDc then do
    let len ← checked (strlen line.size line.str 0)
    if line.pos=len then return line
    else
      let rest ← checked (strlen line.size line.str (line.pos+1))
      let str ← checked (memmove line.size line.str line.pos (line.pos+1) (rest+1))
      return {line with str := str}
  else if c=keyBackspace then
    if line.pos=0 then return line
    else do
      let rest ← checked (strlen line.size line.str line.pos)
      let str ← checked (memmove line.size line.str (line.pos-1) line.pos (rest+1))
      return {line with str := str,pos := line.pos-1}
  else if c=23 then checked (eraseWord line)
  else if c=err then return line
  else if isprint c && decide (c≠9) then insertChar junk c line
  else return line

/-- Keys that end the loop. -/
def ends (c : ℤ) : Bool := decide (c=keyEnter ∨ c=13 ∨ c=27 ∨ c=7)

/-- How far `edline` has come. -/
inductive Outcome (σ : Type) where
  /-- The editor waits for the next key. -/
  | editing (line : σ)
  /-- The editor has returned a text or nothing. -/
  | returned (text : Option (List Char))

/-- The loop, for the results of `getch`. -/
def loop (junk : Buffer) : List ℤ→Line→Except Stop (Outcome Line)
  | [],line => .ok (.editing line)
  | c::cs,line => do
    let line ← press junk c line
    if ends c then
      if c=keyEnter ∨ c=13 then
        let text ← checked (textAt line.size line.str 0)
        return .returned (some text)
      else return .returned none
    else loop junk cs line

/-- `edline`. -/
def edline (junk : Buffer) (initial : Option CStr) (keys : List ℤ) :
    Except Stop (Outcome Line) := do
  let line ← start junk initial
  loop junk keys line

/-- A line of characters with a cursor. -/
abbrev CharZipper := Zipper Char

/-- What a key does. -/
inductive Edit : ℤ→CharZipper→CharZipper→Prop where
  | clear {c : ℤ} (z : CharZipper) (h : c=keyDl ∨ c=21) : Edit c z .clear
  | left (z : CharZipper) : Edit keyLeft z z.left
  | right (z : CharZipper) : Edit keyRight z z.right
  | home {c : ℤ} (z : CharZipper) (h : c=keyHome ∨ c=1) : Edit c z z.home
  | last {c : ℤ} (z : CharZipper) (h : c=keyEnd ∨ c=5) : Edit c z z.last
  | delete (z : CharZipper) : Edit keyDc z z.delete
  | backspace (z : CharZipper) : Edit keyBackspace z z.backspace
  /-- Some characters immediately before the cursor. -/
  | word (z : CharZipper) (k : ℕ) (h : k≤ z.before.length) : Edit 23 z (z.erase k)
  | insert {c : ℤ} (z : CharZipper) (h : 32≤ c ∧ c≤126) : Edit c z (z.insert (Char.ofNat c.toNat))
  | other {c : ℤ} (z : CharZipper) (hp : ¬(32≤ c ∧ c≤126))
      (hk : c∉[keyDl,21,keyLeft,keyRight,keyHome,1,keyEnd,5,keyDc,keyBackspace,23]) : Edit c z z

/-- What a sequence of keys does. -/
inductive Edits : List ℤ→CharZipper→Outcome CharZipper→Prop where
  | nil (z : CharZipper) : Edits [] z (.editing z)
  | cons {c : ℤ} {cs : List ℤ} {z z' : CharZipper} {o : Outcome CharZipper} (h : Edit c z z')
      (hc : ends c=false) (hs : Edits cs z' o) : Edits (c::cs) z o
  | enter {c : ℤ} (cs : List ℤ) (z : CharZipper) (h : c=keyEnter ∨ c=13) :
      Edits (c::cs) z (.returned (some z.text))
  | cancel {c : ℤ} (cs : List ℤ) (z : CharZipper) (h : c=27 ∨ c=7) :
      Edits (c::cs) z (.returned none)

/-- The variables show a line with a cursor. -/
structure Shows (line : Line) (z : CharZipper) : Prop where
  /-- The text stands in the block, with its terminator. -/
  text : Holds line.size line.str z.text
  /-- The cursor. -/
  pos : line.pos=z.before.length
  /-- The size of the block is an int. -/
  int : line.slen<2^31

/-- The line before the first key. -/
def first (initial : Option CStr) : CharZipper := ⟨(initial.map Subtype.val).getD [],[]⟩

/-- What is said of a result: every access was inside the block and the line with its cursor was
edited by the keys, or the line has become so long that the size of a block for it is no int. -/
def FaithfulFrom (z : CharZipper) (keys : List ℤ) : Except Stop (Outcome Line)→Prop
  | .error .abort => 2^30≤ z.text.length+keys.length
  | .error (.fault _) => False
  | .ok (.editing line) => ∃ z',Edits keys z (.editing z') ∧ Shows line z' ∧
      0≤ line.pos ∧ line.pos≤ z'.text.length ∧ z'.text.length<line.slen
  | .ok (.returned text) => Edits keys z (.returned text)

/-- What is said of `edline`. -/
def Faithful (junk : Buffer) (initial : Option CStr) (keys : List ℤ) : Prop :=
  FaithfulFrom (first initial) keys (edline junk initial keys)

variable {line : Line} {z : CharZipper} {junk : Buffer} {c : ℤ}

/-- An access that succeeds goes on with its value. -/
@[simp] theorem checked_ok {α : Type} (a : α) : checked (.ok a)=.ok a := rfl

/-- After a success the next computation gets its value. -/
@[simp] theorem stop_bind {α β : Type} (a : α) (f : α→Except Stop β) :
    (Except.ok a >>= f)=f a := rfl

/-- The line holds the characters before the cursor and those behind it. -/
theorem Shows.parts (h : Shows line z) : Holds line.size line.str (z.before++z.after) := h.text

/-- The size of the block as a number. -/
theorem Shows.size_eq (h : Shows line z) : (line.size : ℤ)=line.slen := by
  have hfits := h.text.fits
  simp only [Line.size] at hfits ⊢
  omega

/-- `strlen` of the line is the length of the whole text. -/
theorem Shows.strlen (h : Shows line z) :
    TextBuffer.strlen line.size line.str 0=.ok z.text.length := h.text.strlen_eq

/-- The length of what is behind the cursor. -/
theorem Shows.strlen_pos (h : Shows line z) :
    TextBuffer.strlen line.size line.str line.pos=.ok z.after.length := by
  rw [h.pos]
  exact strlen_behind h.parts

/-- Moving the cursor within the text leaves a line that shows the moved zipper. -/
theorem Shows.move (h : Shows line z) {z' : CharZipper} (ht : z'.text=z.text) {pos : ℤ}
    (hp : pos=z'.before.length) : Shows {line with pos := pos} z' where
  text := ht ▸ h.text
  pos := hp
  int := h.int

/-- A line with another text in the same block shows the zipper of this text. -/
theorem Shows.edit (h : Shows line z) (z' : CharZipper) {str : Buffer}
    (ht : Holds line.size str z'.text) {pos : ℤ} (hp : pos=z'.before.length) :
    Shows {line with str := str,pos := pos} z' where
  text := ht
  pos := hp
  int := h.int

/-- A text is as long as its parts before and behind the cursor. -/
theorem text_length (z : CharZipper) : z.text.length=z.before.length+z.after.length :=
  List.length_append

/-- A key does what it is meant to do, or the block cannot be made larger. -/
def Pressed (junk : Buffer) (c : ℤ) (line : Line) (z : CharZipper) : Prop :=
  (press junk c line=.error .abort ∧ 2^30≤ z.text.length+1) ∨
    ∃ line' z',press junk c line=.ok line' ∧ Shows line' z' ∧ Edit c z z'

/-- The keys that clear the line leave an empty text. -/
theorem press_clear (h : Shows line z) (hc : c=keyDl ∨ c=21) : Pressed junk c line z := by
  have hfits := h.text.fits
  have hput : put line.size line.str (0 : ℕ) nul=.ok (Function.update line.str 0 nul) :=
    put_ok (by omega) nul
  have hall : Holds line.size line.str ([]++z.text) := h.text
  have hcut := holds_truncate hall
  have hp : press junk c line=checked (put line.size line.str (0 : ℕ) nul) >>= fun str =>
      .ok {line with str := str,pos := 0} := by
    rw [press,if_pos hc]
    rfl
  rw [hput,checked_ok,stop_bind] at hp
  exact .inr ⟨_,.clear,hp,h.edit .clear hcut rfl,.clear z hc⟩

/-- The key to the left moves the cursor over the character before it. -/
theorem press_left (h : Shows line z) : Pressed junk keyLeft line z := by
  refine .inr ⟨_,z.left,rfl,h.move z.left_text ?_,.left z⟩
  rw [z.left_length,h.pos]
  split <;> omega

/-- The key to the right moves the cursor over the character behind it. -/
theorem press_right (h : Shows line z) : Pressed junk keyRight line z := by
  have hp : press junk keyRight line=checked (strlen line.size line.str 0) >>= fun len =>
      .ok {line with pos := if line.pos+1>len then len else line.pos+1} := rfl
  rw [h.strlen,checked_ok,stop_bind] at hp
  refine .inr ⟨_,z.right,hp,h.move z.right_text ?_,.right z⟩
  rw [z.right_length,h.pos]
  split <;> omega

/-- The keys to the start move the cursor before the first character. -/
theorem press_home (h : Shows line z) (hc : c=keyHome ∨ c=1) : Pressed junk c line z := by
  have hp : press junk c line=.ok {line with pos := 0} := by
    rcases hc with rfl|rfl <;> rfl
  exact .inr ⟨_,z.home,hp,h.move z.home_text rfl,.home z hc⟩

/-- The keys to the end move the cursor behind the last character. -/
theorem press_end (h : Shows line z) (hc : c=keyEnd ∨ c=5) : Pressed junk c line z := by
  have hp : press junk c line=checked (strlen line.size line.str 0) >>= fun len =>
      .ok {line with pos := len} := by
    rcases hc with rfl|rfl <;> rfl
  rw [h.strlen,checked_ok,stop_bind] at hp
  exact .inr ⟨_,z.last,hp,h.move z.last_text rfl,.last z hc⟩

/-- The key that deletes the character behind the cursor. -/
theorem press_delete (h : Shows line z) : Pressed junk keyDc line z := by
  have hp : press junk keyDc line=checked (strlen line.size line.str 0) >>= fun len =>
      if line.pos=len then .ok line
      else checked (strlen line.size line.str (line.pos+1)) >>= fun rest =>
        checked (memmove line.size line.str line.pos (line.pos+1) (rest+1)) >>= fun str =>
          .ok {line with str := str} := rfl
  rw [h.strlen,checked_ok,stop_bind] at hp
  obtain ⟨before,after⟩ := z
  have hpos : line.pos=before.length := h.pos
  have htext : Holds line.size line.str (before++after) := h.text
  have hlen : (Zipper.text ⟨before,after⟩).length=before.length+after.length := List.length_append
  cases after with
  | nil =>
    rw [if_pos (by rw [hpos,hlen]; simp)] at hp
    exact .inr ⟨line,_,hp,h,.delete _⟩
  | cons x after =>
    have hone : line.pos+1=((before++[x]).length : ℕ) := by simp [hpos]
    have hsplit : Holds line.size line.str ((before++[x])++after) := by simpa using htext
    have hparts : Holds line.size line.str (before++([x]++after)) := htext
    obtain ⟨str,hmove,hheld⟩ := delete_holds hparts
    rw [if_neg (by rw [hpos,hlen]; simp only [List.length_cons]; omega),hone,strlen_behind hsplit,
      checked_ok,stop_bind,hpos] at hp
    rw [Int.natCast_succ] at hmove
    rw [hmove,checked_ok,stop_bind] at hp
    exact .inr ⟨_,⟨before,after⟩,hp,h.edit ⟨before,after⟩ hheld rfl,.delete _⟩

/-- The key that deletes the character before the cursor. -/
theorem press_backspace (h : Shows line z) : Pressed junk keyBackspace line z := by
  have hp : press junk keyBackspace line=
      if line.pos=0 then .ok line
      else checked (strlen line.size line.str line.pos) >>= fun rest =>
        checked (memmove line.size line.str (line.pos-1) line.pos (rest+1)) >>= fun str =>
          .ok {line with str := str,pos := line.pos-1} := rfl
  have hrest := h.strlen_pos
  obtain ⟨before,after⟩ := z
  have hpos : line.pos=before.length := h.pos
  rcases List.eq_nil_or_concat' before with rfl|⟨before,x,rfl⟩
  · have h0 : line.pos=0 := hpos
    rw [if_pos h0] at hp
    exact .inr ⟨line,_,hp,h,.backspace _⟩
  · have htext : Holds line.size line.str (before++([x]++after)) := by
      rw [← List.append_assoc]
      exact h.text
    obtain ⟨str,hmove,hheld⟩ := delete_holds htext
    rw [Int.natCast_succ,← hpos] at hmove
    rw [List.length_append,List.length_singleton] at hpos
    have hprev : line.pos-1=before.length := by omega
    rw [if_neg (by omega),hrest,checked_ok,stop_bind,hprev,hmove,checked_ok,stop_bind] at hp
    refine .inr ⟨_,_,hp,h.edit ⟨before,after⟩ hheld rfl,?_⟩
    have he := Edit.backspace ⟨before++[x],after⟩
    rwa [Zipper.backspace,List.dropLast_concat] at he

/-- A size of a block that was doubled is an int again, or it is negative. -/
theorem toInt_double {slen : ℤ} (h0 : 0<slen) (hi : slen<2^31) :
    toInt (slen*2)=slen*2 ∧ slen*2<2^31 ∨ toInt (slen*2)<0 ∧ 2^30≤ slen := by
  unfold toInt
  rcases Int.lt_or_le (slen*2) (2^31) with hlt|hle
  · left
    rw [Int.bmod_eq_of_le (by omega) (by omega)]
    exact ⟨rfl,hlt⟩
  · right
    rw [Int.bmod_def,Int.emod_eq_of_lt (by omega) (by omega)]
    split <;> omega

/-- There is room for one more character, or the block cannot be made larger. -/
theorem grow_spec (h : Shows line z) (junk : Buffer) :
    (grow junk z.text.length line=.error .abort ∧ 2^30≤ z.text.length+1) ∨
      ∃ line',grow junk z.text.length line=.ok line' ∧ Shows line' z ∧
        z.text.length+1<line'.size := by
  have hfits := h.text.fits
  have hsize := h.size_eq
  unfold grow
  by_cases hfull : (z.text.length : ℤ)=line.slen-1
  · rw [if_pos hfull]
    rcases toInt_double (by omega) h.int with ⟨hdouble,hint⟩|⟨hneg,hlong⟩
    · right
      have hwide : line.size≤ (line.slen*2).toNat := by omega
      have hok : allocate (line.slen*2)=.ok () := if_neg (by omega)
      refine ⟨{line with
          str := fun k => if k<line.size then line.str k else junk k
          slen := line.slen*2},?_,⟨holds_grow h.text hwide fun k hk => if_pos hk,h.pos,hint⟩,?_⟩
      · simp only [hdouble,hok,stop_bind]
        rfl
      · change z.text.length+1<(line.slen*2).toNat
        omega
    · left
      have hno : allocate (toInt (line.slen*2))=.error .abort := if_pos hneg
      refine ⟨?_,by omega⟩
      simp only [hno]
      rfl
  · rw [if_neg hfull]
    exact .inr ⟨line,rfl,h,by omega⟩

/-- The character of a printable key is not NUL. -/
theorem ofNat_ne_nul (hc : 32≤ c ∧ c≤126) : Char.ofNat c.toNat≠nul := by
  have hall : ∀ n<127,32≤ n→Char.ofNat n≠nul := by decide
  exact hall c.toNat (by omega) (by omega)

/-- A printable character is inserted, or the block cannot be made larger. -/
theorem insertChar_spec (h : Shows line z) (hc : 32≤ c ∧ c≤126) (junk : Buffer) :
    (insertChar junk c line=.error .abort ∧ 2^30≤ z.text.length+1) ∨
      ∃ line',insertChar junk c line=.ok line' ∧
        Shows line' (z.insert (Char.ofNat c.toNat)) := by
  have hi : insertChar junk c line=checked (strlen line.size line.str 0) >>= fun len =>
      grow junk len line >>= fun line =>
        checked (strlen line.size line.str line.pos) >>= fun rest =>
          checked (memmove line.size line.str (line.pos+1) line.pos (rest+1)) >>= fun str =>
            checked (put line.size str line.pos (Char.ofNat c.toNat)) >>= fun str =>
              .ok {line with str := str,pos := line.pos+1} := rfl
  rw [h.strlen,checked_ok,stop_bind] at hi
  rcases grow_spec h junk with ⟨hno,hlong⟩|⟨wide,hok,hw,hroom⟩
  · rw [hno] at hi
    exact .inl ⟨hi,hlong⟩
  · obtain ⟨str,hmove,hheld⟩ := insert_holds hw.parts (ofNat_ne_nul hc) hroom
    have hin : z.before.length<wide.size := by
      rw [text_length] at hroom
      omega
    have hput := @put_ok _ str _ hin (Char.ofNat c.toNat)
    rw [Int.natCast_succ,Int.natCast_succ,← hw.pos] at hmove
    rw [← hw.pos] at hput
    rw [hok,stop_bind,hw.strlen_pos,checked_ok,stop_bind,hmove,checked_ok,stop_bind,hput,checked_ok,
      stop_bind] at hi
    refine .inr ⟨_,hi,hw.edit (z.insert _) ?_ ?_⟩
    · rw [Zipper.text,Zipper.insert,List.append_assoc]
      exact hheld
    · rw [hw.pos,Zipper.insert,List.length_append]
      rfl

/-- The index a backward scan of a text stops at. -/
def backTo (stop : Char→Bool) (text : List Char) : ℕ→ℕ
  | 0 => 0
  | i+1 => if stop (text.getD (i+1) nul) then i+1 else backTo stop text i

/-- A backward scan does not go forward. -/
theorem backTo_le (stop : Char→Bool) (text : List Char) (i : ℕ) : backTo stop text i≤ i := by
  induction i with
  | zero => exact le_refl _
  | succ i ih =>
    rw [backTo]
    split <;> omega

/-- Scanning back in the block is scanning back in its text. -/
theorem scanBack_eq {size : ℕ} {str : Buffer} {text : List Char} (h : Holds size str text)
    (stop : Char→Bool) {i : ℕ} (hi : i≤ text.length) :
    scanBack size stop str i=.ok (backTo stop text i) := by
  obtain ⟨hfits,hchars,-⟩ := holds_iff.mp h
  induction i with
  | zero => rfl
  | succ i ih =>
    rw [scanBack,get_ok (by omega),ok_bind,hchars _ hi,backTo]
    split
    · rfl
    · exact ih (by omega)

/-- Where `^W` puts the cursor. -/
def eraseTo (z : CharZipper) : ℕ :=
  backTo isspace z.text (backTo (fun c => !isspace c) z.text z.before.length)

/-- `^W` does not move the cursor to the right. -/
theorem eraseTo_le (z : CharZipper) : eraseTo z≤ z.before.length :=
  (backTo_le ..).trans (backTo_le ..)

/-- `^W` deletes the text between two cursors. -/
theorem eraseWord_spec (h : Shows line z) : ∃ line',eraseWord line=.ok line' ∧
    Shows line' (z.erase (eraseTo z)) := by
  have hpos := h.pos
  have hlen := text_length z
  have hle := eraseTo_le z
  have hmid := backTo_le (fun c => !isspace c) z.text z.before.length
  have hfirst := scanBack_eq h.text (fun c => !isspace c) (i:=z.before.length) (by omega)
  have hsecond := scanBack_eq h.text isspace
    (i:=backTo (fun c => !isspace c) z.text z.before.length) (by omega)
  have he : eraseWord line=
      if (eraseTo z : ℤ)≠line.pos then
        strlen line.size line.str line.pos >>= fun len =>
          memmove line.size line.str (eraseTo z) line.pos (len+1) >>= fun str =>
            .ok {line with str := str,pos := eraseTo z}
      else .ok line := by
    rw [eraseWord,hpos,Int.toNat_natCast,hfirst,ok_bind,hsecond,ok_bind]
    rfl
  by_cases hmoved : (eraseTo z : ℤ)≠line.pos
  · have hsplit : z.before.take (eraseTo z)++(z.before.drop (eraseTo z)++z.after)=z.text := by
      rw [← List.append_assoc,List.take_append_drop]
      rfl
    have hstart : (z.before.take (eraseTo z)).length=eraseTo z := List.length_take_of_le hle
    obtain ⟨str,hmove,hheld⟩ := delete_holds (hsplit.symm ▸ h.text)
    rw [List.take_append_drop,hstart,Int.natCast_succ,← hpos] at hmove
    rw [if_pos hmoved,h.strlen_pos,ok_bind,hmove,ok_bind] at he
    exact ⟨_,he,h.edit (z.erase _) hheld (congrArg Nat.cast hstart.symm)⟩
  · rw [if_neg hmoved] at he
    have hsame : z.erase (eraseTo z)=z := by
      rw [Zipper.erase,List.take_of_length_le (by omega)]
    exact ⟨line,he,hsame.symm ▸ h⟩

/-- Every key does what it is meant to do, or the block cannot be made larger. -/
theorem press_spec (h : Shows line z) (junk : Buffer) (c : ℤ) : Pressed junk c line z := by
  by_cases hclear : c=keyDl ∨ c=21
  · exact press_clear h hclear
  by_cases hleft : c=keyLeft
  · exact hleft ▸ press_left h
  by_cases hright : c=keyRight
  · exact hright ▸ press_right h
  by_cases hhome : c=keyHome ∨ c=1
  · exact press_home h hhome
  by_cases hend : c=keyEnd ∨ c=5
  · exact press_end h hend
  by_cases hdc : c=keyDc
  · exact hdc ▸ press_delete h
  by_cases hback : c=keyBackspace
  · exact hback ▸ press_backspace h
  have hp : press junk c line=if c=23 then checked (eraseWord line)
      else if c=err then .ok line
      else if isprint c && decide (c≠9) then insertChar junk c line
      else .ok line := by
    rw [press,if_neg hclear,if_neg hleft,if_neg hright,if_neg hhome,if_neg hend,if_neg hdc,
      if_neg hback]
    rfl
  by_cases hword : c=23
  · obtain ⟨line',he,hs⟩ := eraseWord_spec h
    rw [if_pos hword,he,checked_ok] at hp
    exact .inr ⟨line',_,hp,hs,hword ▸ .word z _ (eraseTo_le z)⟩
  rw [if_neg hword] at hp
  by_cases hprint : 32≤ c ∧ c≤126
  · have herr : c≠err := by
      rintro rfl
      exact absurd hprint (by decide)
    have htest : (isprint c && decide (c≠9))=true := by
      simp only [isprint,Bool.and_eq_true,decide_eq_true_eq]
      omega
    rw [if_neg herr,if_pos htest] at hp
    rcases insertChar_spec h hprint junk with ⟨hno,hlong⟩|⟨line',hok,hs⟩
    · exact .inl ⟨hp.trans hno,hlong⟩
    · exact .inr ⟨line',_,hp.trans hok,hs,.insert z hprint⟩
  · have htest : ¬(isprint c && decide (c≠9))=true := by
      simp only [isprint,Bool.and_eq_true,decide_eq_true_eq]
      exact fun h => hprint h.1
    rw [if_neg htest,ite_self] at hp
    refine .inr ⟨line,z,hp,h,.other z hprint ?_⟩
    simp only [List.mem_cons,List.not_mem_nil,not_or]
    exact ⟨fun h => hclear (.inl h),fun h => hclear (.inr h),hleft,hright,
      fun h => hhome (.inl h),fun h => hhome (.inr h),fun h => hend (.inl h),
      fun h => hend (.inr h),hdc,hback,hword,not_false⟩

/-- The keys that end the loop edit nothing. -/
theorem edit_of_ends {z' : CharZipper} (h : Edit c z z') (he : ends c=true) : z'=z := by
  have hc : c=343 ∨ c=13 ∨ c=27 ∨ c=7 := of_decide_eq_true he
  cases h with
  | clear _ h => unfold keyDl at h; omega
  | left => exact absurd he (by decide)
  | right => exact absurd he (by decide)
  | home _ h => unfold keyHome at h; omega
  | last _ h => unfold keyEnd at h; omega
  | delete => exact absurd he (by decide)
  | backspace => exact absurd he (by decide)
  | word => exact absurd he (by decide)
  | insert _ h => omega
  | other => rfl

/-- No key makes a line longer by more than a character. -/
theorem edit_length {z' : CharZipper} (h : Edit c z z') : z'.text.length≤ z.text.length+1 := by
  cases h with
  | clear => exact Nat.zero_le _
  | left => simp
  | right => simp
  | home => simp
  | last => simp
  | delete =>
    simp only [text_length,Zipper.delete,List.length_tail]
    omega
  | backspace =>
    simp only [text_length,Zipper.backspace,List.length_dropLast]
    omega
  | word =>
    simp only [text_length,Zipper.erase,List.length_take]
    omega
  | insert =>
    simp only [text_length,Zipper.insert,List.length_append,List.length_singleton]
    omega
  | other => exact Nat.le_succ _

/-- Keys are followed if the first one edits the line and the others are followed from there. -/
theorem FaithfulFrom.cons {z' : CharZipper} {cs : List ℤ} {r : Except Stop (Outcome Line)}
    (h : Edit c z z') (hc : ends c=false) (hf : FaithfulFrom z' cs r) :
    FaithfulFrom z (c::cs) r := by
  cases r with
  | error stop =>
    cases stop with
    | abort =>
      have hlong : 2^30≤ z'.text.length+cs.length := hf
      have hlen := edit_length h
      change 2^30≤ z.text.length+(cs.length+1)
      omega
    | fault f => exact hf
  | ok o =>
    cases o with
    | editing line =>
      obtain ⟨z'',he,hrest⟩ := hf
      exact ⟨z'',Edits.cons h hc he,hrest⟩
    | returned text => exact Edits.cons h hc hf

/-- From every line that shows a zipper the loop follows the keys on the zipper. -/
theorem loop_faithful (h : Shows line z) (junk : Buffer) (keys : List ℤ) :
    FaithfulFrom z keys (loop junk keys line) := by
  induction keys generalizing line z with
  | nil =>
    have hfits := h.text.fits
    have hsize := h.size_eq
    have hpos := h.pos
    have hlen := text_length z
    exact ⟨z,.nil z,h,by omega,by omega,by omega⟩
  | cons c cs ih =>
    rcases press_spec h junk c with ⟨hno,hlong⟩|⟨line',z',hok,hs,he⟩
    · rw [loop,hno]
      change 2^30≤ z.text.length+(cs.length+1)
      omega
    rw [loop,hok,stop_bind]
    cases hc : ends c with
    | false =>
      rw [if_neg Bool.false_ne_true]
      exact (ih hs).cons he hc
    | true =>
      obtain rfl := edit_of_ends he hc
      have hends : c=keyEnter ∨ c=13 ∨ c=27 ∨ c=7 := of_decide_eq_true hc
      rw [if_pos rfl]
      by_cases henter : c=keyEnter ∨ c=13
      · rw [if_pos henter,hs.text.textAt_eq]
        exact .enter cs _ henter
      · rw [if_neg henter]
        exact .cancel cs _ (by tauto)

/-- The first block has room for the initial text, or it cannot be had. -/
def Allocated (initial : Option CStr) : Prop :=
  ∀ text,initial=some text→text.1.length<2^31 ∨ toInt (text.1.length*2+1)<0

/-- The size of the first block is an `int`, or it wraps and is negative. -/
theorem toInt_first {n : ℕ} (h : n<2^31) :
    toInt (n*2+1)=n*2+1 ∧ (n : ℤ)*2+1<2^31 ∨ toInt (n*2+1)<0 := by
  unfold toInt
  rcases Nat.lt_or_ge n (2^30) with hlt|hge
  · left
    rw [Int.bmod_eq_of_le (by omega) (by omega)]
    omega
  · right
    rw [Int.bmod_def,Int.emod_eq_of_lt (by omega) (by omega)]
    split <;> omega

/-- A text that there is room for is held by the first block. -/
theorem newText_ok (junk : Buffer) {slen : ℤ} {text : List Char} (hclean : nul∉text)
    (hroom : text.length<slen) :
    ∃ str,newText junk slen text=.ok (str,slen) ∧ Holds slen.toNat str text := by
  have hfits : ([] : List Char).length+text.length<slen.toNat := by
    rw [List.length_nil]
    omega
  obtain ⟨str,hstore,hheld⟩ := @store_holds slen.toNat junk [] text (by simp) (by simp)
    hfits
  rw [List.nil_append,cut_of_not_mem hclean] at hheld
  have hok : allocate slen=.ok () := if_neg (by omega)
  have hstore' : store slen.toNat junk 0 text=.ok str := hstore
  refine ⟨str,?_,hheld⟩
  rw [newText,hok,stop_bind,hstore',checked_ok,stop_bind]
  rfl

/-- For a negative size there is no block, and the program aborts. -/
theorem newText_abort (junk : Buffer) {slen : ℤ} (text : List Char) (hneg : slen<0) :
    newText junk slen text=.error .abort := by
  have hno : allocate slen=.error .abort := if_pos hneg
  rw [newText,hno]
  rfl

/-- A text that there is no room for is written over the end of the block. -/
theorem newText_overflows (junk : Buffer) {slen : ℤ} {text : List Char} (hpos : 0≤ slen)
    (hshort : slen≤ text.length) : ∃ f,newText junk slen text=.error (.fault f) := by
  have hok : allocate slen=.ok () := if_neg (by omega)
  rw [newText,hok,stop_bind]
  cases hstore : store slen.toNat junk 0 text with
  | error f => exact ⟨f,rfl⟩
  | ok str =>
    have hfits := store_fits (i:=0) hstore
    omega

/-- The variables before the first key, once the text stands in the block. -/
theorem start_shows (junk : Buffer) {initial : Option CStr} {str : Buffer} {slen : ℤ}
    (hb : firstBlock junk initial=.ok (str,slen))
    (h : Holds slen.toNat str (first initial).before) (hint : slen<2^31) :
    ∃ line,start junk initial=.ok line ∧ Shows line (first initial) := by
  refine ⟨⟨str,slen,(first initial).before.length⟩,?_,⟨?_,rfl,hint⟩⟩
  · rw [start,hb,stop_bind]
    dsimp only
    rw [h.strlen_eq,checked_ok,stop_bind]
    rfl
  · rw [first,Zipper.text,List.append_nil]
    exact h

/-- Where there is room, `edline` starts with the cursor at the end of the initial text. -/
theorem start_spec (junk : Buffer) {initial : Option CStr} (h : Allocated initial) :
    (start junk initial=.error .abort ∧ 2^30≤ (first initial).text.length) ∨
      ∃ line,start junk initial=.ok line ∧ Shows line (first initial) := by
  cases initial with
  | none =>
    have hroom : (([] : List Char).length : ℤ)<256 := by decide
    obtain ⟨str,hb,hheld⟩ := newText_ok junk List.not_mem_nil hroom
    exact .inr (start_shows junk hb hheld (by decide))
  | some text =>
    have hroom : toInt (text.1.length*2+1)=text.1.length*2+1 ∧ (text.1.length : ℤ)*2+1<2^31 ∨
        toInt (text.1.length*2+1)<0 :=
      (h text rfl).elim toInt_first .inr
    rcases hroom with ⟨hsize,hint⟩|hneg
    · have hfits : (text.1.length : ℤ)<toInt (text.1.length*2+1) := by omega
      obtain ⟨str,hb,hheld⟩ := newText_ok junk text.2 hfits
      exact .inr (start_shows junk hb hheld (by omega))
    · left
      constructor
      · rw [start,firstBlock,newText_abort junk _ hneg]
        rfl
      · have hsmall : ¬(text.1.length : ℤ)*2+1<2^31 := by
          intro hlt
          rw [toInt,Int.bmod_eq_of_le (by omega) (by omega)] at hneg
          omega
        rw [text_length]
        change 2^30≤ text.1.length+0
        omega

/-- Elsewhere the initial text is copied over the end of the block. -/
theorem start_overflows (junk : Buffer) {text : CStr} (hlong : 2^31≤ text.1.length)
    (hpos : 0≤ toInt (text.1.length*2+1)) : ∃ f,start junk (some text)=.error (.fault f) := by
  have hint : toInt (text.1.length*2+1)<2^31 := Int.bmod_lt (by decide)
  have hshort : toInt (text.1.length*2+1)≤text.1.length := by omega
  obtain ⟨f,hf⟩ := newText_overflows junk hpos hshort
  refine ⟨f,?_⟩
  rw [start,firstBlock,hf]
  rfl

/-- If the size for a text overflows, nothing can be said of it, even before the first key. -/
theorem not_faithful (junk : Buffer) {text : CStr} (hlong : 2^31≤ text.1.length)
    (hpos : 0≤ toInt (text.1.length*2+1)) : ¬∀ keys,Faithful junk (some text) keys := by
  obtain ⟨f,hf⟩ := start_overflows junk hlong hpos
  have hnone : ¬Faithful junk (some text) [] := by
    unfold Faithful edline
    rw [hf]
    exact not_false
  exact not_forall.mpr ⟨[],hnone⟩

/-- Where there is room for the initial text, the keys are followed. -/
theorem faithful_of_allocated (junk : Buffer) {initial : Option CStr} (h : Allocated initial)
    (keys : List ℤ) : Faithful junk initial keys := by
  rw [Faithful,edline]
  rcases start_spec junk h with ⟨hno,hlong⟩|⟨line,hok,hs⟩
  · rw [hno]
    exact hlong.trans (Nat.le_add_right _ _)
  · rw [hok,stop_bind]
    exact loop_faithful hs junk keys

/-- The size of the first block is what decides: `edline` stays in its block for all keys exactly
if it is not too small for the initial text. -/
theorem faithful_iff_allocated (junk : Buffer) (initial : Option CStr) :
    (∀ keys,Faithful junk initial keys) ↔ Allocated initial := by
  constructor
  · intro h text htext
    by_contra hno
    rw [not_or,Nat.not_lt,Int.not_lt] at hno
    exact not_faithful junk hno.1 hno.2 (htext ▸ h)
  · exact fun h keys => faithful_of_allocated junk h keys

/-- For every text that the program can pass and all keys, `edline` edits the line as the keys tell
it to and stays in its block. -/
theorem edline_faithful (junk : Buffer) (initial : Option CStr)
    (h : ∀ text,initial=some text→text.1.length<2^31) (keys : List ℤ) :
    Faithful junk initial keys :=
  faithful_of_allocated junk (fun text htext => .inl (h text htext)) keys

/-- A text with two words. -/
def twoWords : CStr := ⟨"net 10".toList,by decide⟩

/-- The text of two words is short enough for its size to be an `int`. -/
theorem twoWords_short (text : CStr) (h : some twoWords=some text) : text.1.length<2^31 := by
  cases h
  decide

/-- The word before the cursor is erased, and a character is typed in its place. -/
theorem edline_faithful_word :
    Faithful (fun _ => nul) (some twoWords) [keyLeft,keyLeft,keyLeft,23,110,13] :=
  edline_faithful _ _ twoWords_short _

end IftopColor.Edline
