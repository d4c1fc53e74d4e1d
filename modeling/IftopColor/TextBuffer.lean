import Mathlib.Logic.Function.Basic
import Mathlib.Data.List.TakeWhile
import Mathlib.Order.Basic

/-!
# Character buffers with checked accesses

A buffer of some size as a C program has it: indices are integers, and a read or
a write outside of the buffer is a fault. The string functions of the C library
are scans up to a character that stops them, so that they fault on a buffer
without terminator. A buffer holds a text when the text stands at its start,
followed by a NUL.
-/

namespace IftopColor.TextBuffer

/-- The terminator. -/
abbrev nul : Char := '\x00'

/-- Contents of a buffer. -/
abbrev Buffer := ℕ→Char

/-- `isspace`, for characters of a locale that has no more of them than ASCII. -/
def isspace (c : Char) : Bool := c== ' ' || decide (9≤ c.toNat ∧ c.toNat≤13)

/-- What stops a program. -/
inductive Fault where
  /-- An access outside of the buffer. -/
  | outside (i : ℤ)
  /-- A loop that has not ended. -/
  | endless
  deriving DecidableEq

/-- Read a character. -/
def get (size : ℕ) (buf : Buffer) (i : ℤ) : Except Fault Char :=
  if 0≤ i ∧ i<size then .ok (buf i.toNat) else .error (.outside i)

/-- Write a character. -/
def put (size : ℕ) (buf : Buffer) (i : ℤ) (c : Char) : Except Fault Buffer :=
  if 0≤ i ∧ i<size then .ok (Function.update buf i.toNat c) else .error (.outside i)

/-- The first index from `i` on with a character that stops the scan. -/
def scan (size : ℕ) (stop : Char→Bool) (buf : Buffer) : ℕ→ℤ→Except Fault ℤ
  | 0,_ => .error .endless
  | fuel+1,i => do
    let c ← get size buf i
    if stop c then .ok i else scan size stop buf fuel (i+1)

/-- A scan that may use the whole buffer. -/
def scanFrom (size : ℕ) (stop : Char→Bool) (buf : Buffer) (i : ℤ) : Except Fault ℤ :=
  scan size stop buf (size+1) i

/-- `strlen` of the text at an index. -/
def strlen (size : ℕ) (buf : Buffer) (i : ℤ) : Except Fault ℤ := do
  let j ← scanFrom size (fun c => c=nul) buf i
  return j-i

/-- Store characters and a terminator. -/
def store (size : ℕ) (buf : Buffer) (i : ℤ) : List Char→Except Fault Buffer
  | [] => put size buf i nul
  | c::cs => do
    let buf ← put size buf i c
    store size buf (i+1) cs

/-- `snprintf` of a text, with the size that it is given. -/
def snprintf (size : ℕ) (buf : Buffer) (i n : ℤ) (text : List Char) : Except Fault Buffer :=
  if n≤0 then .ok buf else store size buf i (text.take (n-1).toNat)

/-- The text at an index. -/
def textAt (size : ℕ) (buf : Buffer) (i : ℤ) : Except Fault (List Char) := do
  let n ← strlen size buf i
  return (List.range n.toNat).map fun k => buf (i.toNat+k)

variable {size : ℕ} {buf : Buffer} {text : List Char}

/-- Go on after a success. -/
@[simp]
theorem ok_bind {α β : Type} (a : α) (f : α→Except Fault β) : (Except.ok a >>= f)=f a := rfl

/-- What goes through has gone through its first part. -/
theorem eq_ok_of_bind {ε α β : Type} {x : Except ε α} {f : α→Except ε β} {b : β}
    (h : (x >>= f)=.ok b) : ∃ a,x=.ok a ∧ f a=.ok b := by
  cases x with
  | error e => cases h
  | ok a => exact ⟨a,rfl,h⟩

/-- A read at an index below the size gives the character there. -/
theorem get_ok {i : ℕ} (h : i<size) : get size buf i=.ok (buf i) := by
  rw [get,if_pos ⟨by omega,by exact_mod_cast h⟩,Int.toNat_natCast]

/-- A write at an index below the size changes the character there. -/
theorem put_ok {i : ℕ} (h : i<size) (c : Char) :
    put size buf i c=.ok (Function.update buf i c) := by
  rw [put,if_pos ⟨by omega,by exact_mod_cast h⟩,Int.toNat_natCast]

/-- There is a terminator from an index on. -/
def Terminated (size : ℕ) (buf : Buffer) (i : ℕ) : Prop := ∃ k,i≤k ∧ k<size ∧ buf k=nul

/-- A terminator that is written terminates the text before it. -/
theorem Terminated.put {i j : ℕ} (hij : i≤j) (hj : j<size) :
    Terminated size (Function.update buf j nul) i := ⟨j,hij,hj,Function.update_self ..⟩

/-- A terminator stays when one is written anywhere. -/
theorem Terminated.update {i : ℕ} (h : Terminated size buf i) (j : ℕ) :
    Terminated size (Function.update buf j nul) i := by
  obtain ⟨k,hi,hk,hn⟩ := h
  refine ⟨k,hi,hk,?_⟩
  by_cases hkj : k=j
  · rw [hkj,Function.update_self]
  · rw [Function.update_of_ne hkj,hn]

/-- A scan that stops at terminators stops in a buffer that has one: at the first
character that stops it. -/
theorem scan_ok (stop : Char→Bool) (hs : stop nul=true) (fuel : ℕ) {i k : ℕ} (hik : i≤k)
    (hk : k<size) (hn : buf k=nul) (hf : k< i+fuel) :
    ∃ j : ℕ,scan size stop buf fuel i=.ok j ∧ i≤j ∧ j≤k ∧ stop (buf j)=true ∧
      ∀ m,i≤ m→m<j→stop (buf m)=false := by
  induction fuel generalizing i with
  | zero => omega
  | succ fuel ih =>
    rw [scan,get_ok (by omega),ok_bind]
    cases hc : stop (buf i) with
    | true => exact ⟨i,by simp,le_refl i,hik,hc,fun m h1 h2 => by omega⟩
    | false =>
      have hne : i≠k := by
        rintro rfl
        rw [hn,hs] at hc
        cases hc
      obtain ⟨j,hj,hij,hjk,hstop,hbefore⟩ := ih (i:=i+1) (by omega) (by omega)
      refine ⟨j,?_,by omega,hjk,hstop,fun m h1 h2 => ?_⟩
      · simpa using hj
      · rcases Nat.eq_or_lt_of_le h1 with rfl|h1
        · exact hc
        · exact hbefore m h1 h2

/-- A scan from an index before a terminator stops in the buffer. -/
theorem scanFrom_ok (stop : Char→Bool) (hs : stop nul=true) {i : ℕ}
    (h : Terminated size buf i) :
    ∃ j : ℕ,scanFrom size stop buf i=.ok j ∧ i≤j ∧ j<size ∧ Terminated size buf j ∧
      stop (buf j)=true ∧ ∀ m,i≤ m→m<j→stop (buf m)=false := by
  obtain ⟨k,hi,hk,hn⟩ := h
  obtain ⟨j,hj,hij,hjk,hstop,hbefore⟩ := scan_ok stop hs (size+1) hi hk hn (by omega)
  exact ⟨j,hj,hij,by omega,⟨k,hjk,hk,hn⟩,hstop,hbefore⟩

/-- A scan from the start of a terminated buffer stops in it. -/
theorem scanStart_ok (stop : Char→Bool) (hs : stop nul=true) (h : Terminated size buf 0) :
    ∃ j : ℕ,scanFrom size stop buf 0=.ok j ∧ j<size ∧ Terminated size buf j ∧
      stop (buf j)=true := by
  obtain ⟨j,hj,-,hlt,ht,hc,-⟩ := scanFrom_ok stop hs h
  exact ⟨j,by exact_mod_cast hj,hlt,ht,hc⟩

/-- `strlen` of a text that is terminated. -/
theorem strlen_ok {i : ℕ} (h : Terminated size buf i) :
    ∃ n : ℕ,strlen size buf i=.ok n ∧ i+n<size := by
  obtain ⟨j,hj,hij,hlt,-⟩ := scanFrom_ok (fun c => c=nul) (by decide) h
  refine ⟨j-i,?_,by omega⟩
  rw [strlen,hj,ok_bind,Int.ofNat_sub hij]
  rfl

/-- A text that is terminated is read. -/
theorem textAt_ok {i : ℕ} (h : Terminated size buf i) : ∃ text,textAt size buf i=.ok text := by
  obtain ⟨n,hn,-⟩ := strlen_ok h
  rw [textAt,hn]
  exact ⟨_,rfl⟩

/-- Without a terminator no scan for it succeeds. -/
theorem strlen_unterminated (hbuf : ∀ k,buf k≠nul) (i n : ℤ) : strlen size buf i≠.ok n := by
  have hscan : ∀ fuel i j,scan size (fun c => c=nul) buf fuel i≠.ok j := by
    intro fuel
    induction fuel with
    | zero =>
      intro i j h
      cases h
    | succ fuel ih =>
      intro i j h
      rw [scan] at h
      obtain ⟨c,hc,h⟩ := eq_ok_of_bind h
      unfold get at hc
      split at hc
      · cases hc
        rw [if_neg (by simpa using hbuf _)] at h
        exact ih _ _ h
      · cases hc
  intro h
  obtain ⟨j,hj,-⟩ := eq_ok_of_bind h
  exact hscan _ _ _ hj

/-- A text stands at the start of the buffer. -/
structure Holds (size : ℕ) (buf : Buffer) (text : List Char) : Prop where
  /-- There is room for text and terminator. -/
  fits : text.length<size
  /-- The characters. -/
  chars : ∀ i (h : i<text.length),buf i=text[i]
  /-- The terminator. -/
  terminated : buf text.length=nul
  /-- No terminator before that. -/
  clean : ∀ c∈text,c≠nul

/-- A text is terminated from each of its characters on. -/
theorem Holds.terminates (h : Holds size buf text) {i : ℕ} (hi : i≤text.length) :
    Terminated size buf i := ⟨text.length,hi,h.fits,h.terminated⟩

/-- `strlen` of a buffer that holds a text is the length of the text. -/
theorem Holds.strlen_eq (h : Holds size buf text) : strlen size buf 0=.ok text.length := by
  have hfits := h.fits
  obtain ⟨j,hj,-,hjk,hstop,-⟩ :=
    scan_ok (fun c => c=nul) (by decide) (size+1) (Nat.zero_le _) h.fits h.terminated (by omega)
  have hend : j=text.length := by
    by_contra hne
    have hlt : j<text.length := by omega
    have hc := h.clean _ (List.getElem_mem hlt)
    rw [h.chars j hlt] at hstop
    exact hc (by simpa using hstop)
  have hj' : scan size (fun c => c=nul) buf (size+1) (0 : ℤ)=.ok (j : ℤ) := by exact_mod_cast hj
  rw [strlen,scanFrom,hj',ok_bind,hend]
  simp [pure,Except.pure]

/-- The text of a buffer that holds one is read back. -/
theorem Holds.textAt_eq (h : Holds size buf text) : textAt size buf 0=.ok text := by
  rw [textAt,h.strlen_eq,ok_bind]
  refine congrArg Except.ok (List.ext_getElem (by simp) fun i hi hi' => ?_)
  simpa using h.chars i hi'

/-- What is stored has room, with its terminator. -/
theorem store_fits {i : ℕ} {buf' : Buffer} (h : store size buf i text=.ok buf') :
    i+text.length<size := by
  have hput : ∀ {i : ℕ} {buf buf' : Buffer} {c : Char},put size buf i c=.ok buf'→i<size := by
    intro i buf buf' c h
    unfold put at h
    split at h
    · next hi => exact_mod_cast hi.2
    · cases h
  induction text generalizing i buf with
  | nil => exact hput h
  | cons c cs ih =>
    rw [store] at h
    obtain ⟨buf₁,-,h⟩ := eq_ok_of_bind h
    have hcast : (i : ℤ)+1=((i+1 : ℕ) : ℤ) := by omega
    rw [hcast] at h
    have hrest := ih h
    rw [List.length_cons]
    omega

/-- Storing writes the characters and a terminator and nothing before them. -/
theorem store_ok (buf : Buffer) {i : ℕ} (h : i+text.length<size) :
    ∃ buf',store size buf i text=.ok buf' ∧ (∀ m< i,buf' m=buf m) ∧
      (∀ k (hk : k<text.length),buf' (i+k)=text[k]) ∧ buf' (i+text.length)=nul := by
  induction text generalizing i buf with
  | nil =>
    refine ⟨_,put_ok h nul,fun m hm => ?_,fun k hk => absurd hk (by simp),Function.update_self ..⟩
    exact Function.update_of_ne (by omega) ..
  | cons c cs ih =>
    rw [List.length_cons] at h
    obtain ⟨buf',hs,hb,hc,hn⟩ := ih (Function.update buf i c) (i:=i+1) (by omega)
    refine ⟨buf',?_,fun m hm => ?_,fun k hk => ?_,?_⟩
    · rw [store,put_ok (by omega),ok_bind]
      exact_mod_cast hs
    · rw [hb m (by omega),Function.update_of_ne (by omega)]
    · cases k with
      | zero => rw [Nat.add_zero,hb i (by omega),Function.update_self,List.getElem_cons_zero]
      | succ k =>
        have hk' := hc k (by simpa using hk)
        rw [List.getElem_cons_succ,←hk']
        congr 1
        omega
    · rw [←hn,List.length_cons]
      congr 1
      omega

/-- The part of a text before its first NUL. -/
abbrev cut (text : List Char) : List Char := text.takeWhile fun c => c≠nul

/-- What `strlen` sees after characters were stored behind a text. -/
theorem store_holds {w chars : List Char} (hw : ∀ i (h : i<w.length),buf i=w[i])
    (hc : ∀ c∈w,c≠nul) (h : w.length+chars.length<size) :
    ∃ buf',store size buf w.length chars=.ok buf' ∧ Holds size buf' (w++cut chars) := by
  obtain ⟨buf',hs,hb,hl,hn⟩ := store_ok buf h
  have hsplit : cut chars++chars.dropWhile (fun c => c≠nul)=chars :=
    List.takeWhile_append_dropWhile
  have hlen := congrArg List.length hsplit
  rw [List.length_append] at hlen
  refine ⟨buf',hs,?_,fun i hi => ?_,?_,?_⟩
  · rw [List.length_append]
    omega
  · rw [List.length_append] at hi
    by_cases hiw : i<w.length
    · rw [List.getElem_append_left hiw,hb i hiw,hw i hiw]
    · have hk := hl (i-w.length) (by omega)
      rw [Nat.add_sub_cancel' (by omega)] at hk
      rw [List.getElem_append_right (by omega),hk]
      exact (List.IsPrefix.getElem (List.takeWhile_prefix _) _).symm
  · rw [List.length_append]
    cases hd : chars.dropWhile (fun c => c≠nul) with
    | nil =>
      rw [hd,List.length_nil,Nat.add_zero] at hlen
      rw [hlen,hn]
    | cons d ds =>
      rw [hd,List.length_cons] at hlen
      have hd0 : d=nul := by
        have hhead := List.head?_dropWhile_not (fun c : Char => decide (c≠nul)) chars
        rw [hd] at hhead
        simpa using hhead
      rw [hl (cut chars).length (by omega),←hd0]
      have hget : chars[(cut chars).length]?=some d := by
        rw [hd] at hsplit
        have happ : (cut chars++d::ds)[(cut chars).length]?=some d := by
          rw [List.getElem?_append_right (le_refl _),Nat.sub_self]
          rfl
        rwa [hsplit] at happ
      exact Option.some.inj ((List.getElem?_eq_getElem (by omega)).symm.trans hget)
  · intro c hm
    rcases List.mem_append.mp hm with hm|hm
    · exact hc c hm
    · simpa using List.mem_takeWhile_imp hm

/-- What `snprintf` leaves behind a text. -/
theorem snprintf_holds {w : List Char} {n : ℕ} (hw : ∀ i (h : i<w.length),buf i=w[i])
    (hc : ∀ c∈w,c≠nul) (hn : 0<n) (h : w.length+(text.take (n-1)).length<size) :
    ∃ buf',snprintf size buf w.length n text=.ok buf' ∧
      Holds size buf' (w++cut (text.take (n-1))) := by
  obtain ⟨buf',hs,hh⟩ := store_holds hw hc h
  have hcast : ((n : ℤ)-1).toNat=n-1 := by omega
  refine ⟨buf',?_,hh⟩
  rw [snprintf,if_neg (by omega),hcast,hs]

/-- Printing at the start of a buffer leaves the text there, cut to the size. -/
theorem snprintf_start (buf : Buffer) {n : ℕ} (hn : 0<n) (h : (text.take (n-1)).length<size) :
    ∃ buf',snprintf size buf 0 n text=.ok buf' ∧ Holds size buf' (cut (text.take (n-1))) := by
  have hs := @snprintf_holds size buf text [] n (by simp) (by simp) hn (by simpa using h)
  simpa using hs

/-- A text whose characters are all different from NUL is not cut. -/
theorem cut_of_clean (h : ∀ c∈text,c≠nul) : cut text=text := by
  rw [cut,List.takeWhile_eq_self_iff]
  simpa using h

/-- A text without NUL is not cut. -/
theorem cut_of_not_mem (h : nul∉text) : cut text=text := by
  refine cut_of_clean fun c hc hn => ?_
  rw [hn] at hc
  exact h hc

end IftopColor.TextBuffer
