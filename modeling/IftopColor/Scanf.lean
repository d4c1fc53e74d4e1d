import IftopColor.TextBuffer
import Mathlib.Data.UInt
import Mathlib.Tactic.IntervalCases

/-!
# Texts read by a format

`sscanf` with directives for white space, single characters, numbers in a base and runs
of characters from a set. A printed text is read piece by piece. Every piece is read with
what comes behind it present, since a number ends only there.
-/

namespace IftopColor.Scanf

open TextBuffer

/-- Value of a character as a digit, 36 if it is no digit in any base. -/
def digitValue (c : Char) : ℕ :=
  if 48≤ c.toNat ∧ c.toNat≤57 then c.toNat-48
  else if 97≤ c.toNat ∧ c.toNat≤122 then c.toNat-87
  else if 65≤ c.toNat ∧ c.toNat≤90 then c.toNat-55
  else 36

/-- Value of a run of digits. -/
def value (base : ℕ) (s : List Char) : ℕ := s.foldl (fun n c => base*n+digitValue c) 0

/-- A run of digits and its value. -/
structure Digits (base : ℕ) (s : List Char) (n : ℕ) : Prop where
  /-- The letters of the base are letters of hexadecimal digits. -/
  base_le : base≤16
  /-- There are digits. -/
  nonempty : s≠[]
  /-- There is nothing else. -/
  digits : ∀ c∈s,digitValue c<base
  /-- The value. -/
  value_eq : value base s=n

/-- A text with which a number cannot go on. -/
def Stops (s : List Char) : Prop := ∀ c∈s.head?,digitValue c=36

/-- A directive of a format. -/
inductive Directive where
  /-- White space, or none. -/
  | space
  /-- A character. -/
  | lit (c : Char)
  /-- A number that is not stored. -/
  | skip (base : ℕ)
  /-- A number for an `unsigned int`. -/
  | uint (base : ℕ)
  /-- A number for an `unsigned long`. -/
  | ulong (base : ℕ)
  /-- At most some number of characters from a set. -/
  | set (width : ℕ) (accepts : Char→Bool)

/-- What a directive stores. -/
inductive Value where
  | uint (n : UInt32)
  | ulong (n : UInt64)
  | text (s : List Char)
  deriving DecidableEq

/-- The long of `strtoul`, which is the largest one if the number is too large. -/
def strtoul (negative : Bool) (n : ℕ) : UInt64 :=
  if 2^64≤n then -1 else if negative then -UInt64.ofNat n else UInt64.ofNat n

/-- Drop the sign of a number. -/
def dropSign (s : List Char) : List Char :=
  if s.head?=some '-' ∨ s.head?=some '+' then s.tail else s

/-- Drop the letter of `0x` before a hexadecimal number. -/
def dropX (base : ℕ) : List Char→List Char
  | z::x::s => if base=16 ∧ z= '0' ∧ (x= 'x' ∨ x= 'X') then z::s else z::x::s
  | s => s

/-- Read a number behind white space: its long and the rest of the text. -/
def readNumber (base : ℕ) (s : List Char) : Option (UInt64×List Char) :=
  let s := s.dropWhile isspace
  let body := dropX base (dropSign s)
  let digits := body.takeWhile fun c => digitValue c<base
  if digits=[] then none
  else some (strtoul (s.head?==some '-') (value base digits),
    body.dropWhile fun c => digitValue c<base)

/-- `sscanf`: what is stored up to the first directive that fails. -/
def sscanf : List Directive→List Char→List Value
  | [],_ => []
  | .space::ds,s => sscanf ds (s.dropWhile isspace)
  | .lit c::ds,s => if s.head?=some c then sscanf ds s.tail else []
  | .skip base::ds,s =>
    match readNumber base s with
    | none => []
    | some (_,rest) => sscanf ds rest
  | .uint base::ds,s =>
    match readNumber base s with
    | none => []
    | some (n,rest) => .uint n.toUInt32::sscanf ds rest
  | .ulong base::ds,s =>
    match readNumber base s with
    | none => []
    | some (n,rest) => .ulong n::sscanf ds rest
  | .set width accepts::ds,s =>
    let text := (s.take width).takeWhile accepts
    if text=[] then [] else .text text::sscanf ds (s.drop text.length)

/-- `%d` of a number that is not negative, and `%u`. -/
def decimal (n : ℕ) : List Char := Nat.toDigits 10 n

/-- `%d`. -/
def signedDecimal (z : ℤ) : List Char :=
  if z<0 then '-'::decimal z.natAbs else decimal z.natAbs

/-- `%X` with zeros up to a width. -/
def upperHex (width n : ℕ) : List Char :=
  ((Nat.toDigits 16 n).map Char.toUpper).leftpad width '0'

/-- Blanks up to a width. -/
def padded (width : ℕ) (s : List Char) : List Char := s.leftpad width ' '

variable {b n width : ℕ} {s rest text text' : List Char} {c : Char}
  {ds ds' : List Directive} {vs vs' : List Value}

/-- A blank in the format drops the white space of the input. -/
theorem sscanf_space : sscanf (.space::ds) s=sscanf ds (s.dropWhile isspace) := rfl

/-- A character in the format has to be the next one of the input. -/
theorem sscanf_lit : sscanf (.lit c::ds) s=if s.head?=some c then sscanf ds s.tail else [] := rfl

/-- A number that is not stored is read. -/
theorem sscanf_skip {m : UInt64} (h : readNumber b s=some (m,rest)) :
    sscanf (.skip b::ds) s=sscanf ds rest := by
  change (match readNumber b s with
    | none => []
    | some (_,rest) => sscanf ds rest)=_
  rw [h]

/-- A number is stored as an `unsigned int`. -/
theorem sscanf_uint {m : UInt64} (h : readNumber b s=some (m,rest)) :
    sscanf (.uint b::ds) s=.uint m.toUInt32::sscanf ds rest := by
  change (match readNumber b s with
    | none => []
    | some (n,rest) => Value.uint n.toUInt32::sscanf ds rest)=_
  rw [h]

/-- A number is stored as an `unsigned long`. -/
theorem sscanf_ulong {m : UInt64} (h : readNumber b s=some (m,rest)) :
    sscanf (.ulong b::ds) s=.ulong m::sscanf ds rest := by
  change (match readNumber b s with
    | none => []
    | some (n,rest) => Value.ulong n::sscanf ds rest)=_
  rw [h]

/-- A conversion with a set stores the characters that it accepts, if there are any. -/
theorem sscanf_set {accepts : Char→Bool} (h : (s.take width).takeWhile accepts=text)
    (hne : text≠[]) :
    sscanf (.set width accepts::ds) s=.text text::sscanf ds (s.drop text.length) := by
  subst h
  exact if_neg hne

/-- A digit is neither white space nor a sign, nor the letter of a prefix. -/
theorem ne_of_digit (h : digitValue c<17) :
    isspace c=false ∧ c≠ '-' ∧ c≠ '+' ∧ c≠ 'x' ∧ c≠ 'X' := by
  refine ⟨?_,?_,?_,?_,?_⟩
  · have hrange : 48≤ c.toNat := by
      unfold digitValue at h
      split_ifs at h <;> omega
    have hblank : c≠ ' ' := by
      rintro rfl
      revert hrange
      decide
    have hlow : ¬(9≤ c.toNat ∧ c.toNat≤13) := by omega
    rw [isspace,beq_false_of_ne hblank,decide_eq_false hlow]
    rfl
  all_goals
    rintro rfl
    revert h
    decide

/-- One digit more multiplies the value by the base and adds the digit. -/
theorem value_append_singleton (s : List Char) (c : Char) :
    value b (s++[c])=b*value b s+digitValue c := by
  unfold value
  rw [List.foldl_append]
  rfl

/-- Digits with a digit behind them are digits of a larger number. -/
theorem Digits.append (h : Digits b s n) (hc : digitValue c<b) :
    Digits b (s++[c]) (b*n+digitValue c) := by
  refine ⟨h.base_le,List.append_ne_nil_of_left_ne_nil h.nonempty _,?_,?_⟩
  · intro d hd
    rcases List.mem_append.mp hd with hd|hd
    · exact h.digits d hd
    · rwa [List.mem_singleton.mp hd]
  · rw [value_append_singleton,h.value_eq]

/-- The digits of a number, in any letters that have the right values. -/
theorem digits_toDigits (f : Char→Char) (hb : 1<b) (hle : b≤16)
    (hf : ∀ d<b,digitValue (f d.digitChar)=d) (n : ℕ) :
    Digits b ((Nat.toDigits b n).map f) n := by
  induction n using Nat.strongRecOn with
  | ind n ih =>
    rw [Nat.toDigits_eq_if hb]
    split
    · rename_i hn
      have hvalue := hf n hn
      refine ⟨hle,List.cons_ne_nil _ _,?_,?_⟩
      · intro c hc
        rw [List.map_singleton,List.mem_singleton] at hc
        rwa [hc,hvalue]
      · simp [value,hvalue]
    · rename_i hn
      have hvalue := hf (n%b) (Nat.mod_lt _ (by omega))
      have hlow := ih (n/b) (Nat.div_lt_self (by omega) hb)
      have hlt : digitValue (f (n%b).digitChar)<b := by
        rw [hvalue]
        exact Nat.mod_lt _ (by omega)
      have happ := hlow.append hlt
      rw [hvalue,Nat.div_add_mod] at happ
      rw [List.map_append]
      exact happ

/-- Zeros in front leave digits of the same number. -/
theorem Digits.zeros (h : Digits b s n) (k : ℕ) :
    Digits b (List.replicate k '0'++s) n := by
  have hzero : value b (List.replicate k '0')=0 := by
    induction k with
    | zero => rfl
    | succ k ih =>
      rw [List.replicate_succ',value_append_singleton,ih]
      rfl
  refine ⟨h.base_le,List.append_ne_nil_of_right_ne_nil _ h.nonempty,?_,?_⟩
  · intro c hc
    rcases List.mem_append.mp hc with hc|hc
    · obtain ⟨d,hd⟩ := List.exists_mem_of_ne_nil _ h.nonempty
      rw [(List.mem_replicate.mp hc).2]
      exact Nat.zero_lt_of_lt (h.digits d hd)
    · exact h.digits c hc
  · have hvalue := h.value_eq
    unfold value at hzero hvalue ⊢
    rw [List.foldl_append,hzero,hvalue]

/-- A run of digits has neither white space nor signs, nor the letter of a prefix. -/
theorem Digits.ne (h : Digits b s n) (hc : c∈s) :
    isspace c=false ∧ c≠ '-' ∧ c≠ '+' ∧ c≠ 'x' ∧ c≠ 'X' := by
  have hdigit := h.digits c hc
  have hle := h.base_le
  exact ne_of_digit (by omega)

/-- Decimal numbers are printed with decimal digits. -/
theorem digits_decimal (n : ℕ) : Digits 10 (decimal n) n := by
  have h := digits_toDigits id (b:=10) (by decide) (by decide) (by decide) n
  rwa [List.map_id] at h

/-- Hexadecimal numbers are printed with hexadecimal digits. -/
theorem digits_upperHex (width n : ℕ) : Digits 16 (upperHex width n) n :=
  (digits_toDigits Char.toUpper (by decide) (by decide) (by decide) n).zeros _

/-- A number that is not too large has the width. -/
theorem length_upperHex (hwidth : 0<width) (h : n<16^width) :
    (upperHex width n).length=width := by
  have hle := (Nat.length_toDigits_le_iff (b:=16) (by decide) hwidth).mpr h
  rw [upperHex,List.length_leftpad,List.length_map]
  exact max_eq_left hle

/-- A number stops at a character that is no digit. -/
theorem stops_cons (rest : List Char) (h : digitValue c=36) : Stops (c::rest) := by
  rintro d hd
  rwa [←Option.some.inj hd]

/-- A number stops at a blank. -/
theorem stops_blank (rest : List Char) : Stops (' '::rest) := stops_cons rest (by decide)

/-- A number stops at a colon. -/
theorem stops_colon (rest : List Char) : Stops (':'::rest) := stops_cons rest (by decide)

/-- A number stops at the end of the text. -/
theorem stops_nil : Stops [] := fun c hc => by cases hc

/-- Digits begin with no sign. -/
theorem Digits.dropSign (h : Digits b s n) (rest : List Char) :
    dropSign (s++rest)=s++rest := by
  obtain ⟨d,ds,rfl⟩ := List.exists_cons_of_ne_nil h.nonempty
  obtain ⟨-,hminus,hplus,-,-⟩ := h.ne List.mem_cons_self
  simp [Scanf.dropSign,hminus,hplus]

/-- Digits begin with no prefix of a base, so nothing is dropped. -/
theorem Digits.dropX (h : Digits b s n) (hs : Stops rest) :
    dropX b (s++rest)=s++rest := by
  obtain ⟨d,ds,rfl⟩ := List.exists_cons_of_ne_nil h.nonempty
  cases htail : ds++rest with
  | nil =>
    rw [List.cons_append,htail]
    rfl
  | cons x xs =>
    have hx : x≠ 'x' ∧ x≠ 'X' := by
      cases ds with
      | nil =>
        have hstop : digitValue x=36 := hs x (by rw [show rest=x::xs from htail]; rfl)
        constructor <;>
        · rintro rfl
          revert hstop
          decide
      | cons e es =>
        obtain ⟨rfl,-⟩ := List.cons.inj htail
        exact (h.ne (List.mem_cons_of_mem _ List.mem_cons_self)).2.2.2
    rw [List.cons_append,htail,Scanf.dropX,if_neg]
    rintro ⟨-,-,h'⟩
    exact h'.elim hx.1 hx.2

/-- A run of digits ends where a number cannot go on. -/
theorem Digits.span (h : Digits b s n) (hs : Stops rest) :
    (s++rest).takeWhile (fun c => digitValue c<b)=s ∧
      (s++rest).dropWhile (fun c => digitValue c<b)=rest := by
  have hd : ∀ c∈s,decide (digitValue c<b)=true := fun c hc => decide_eq_true (h.digits c hc)
  have hrest : rest.takeWhile (fun c => digitValue c<b)=[] ∧
      rest.dropWhile (fun c => digitValue c<b)=rest := by
    cases rest with
    | nil => exact ⟨rfl,rfl⟩
    | cons c cs =>
      have hstop : digitValue c=36 := hs c rfl
      have hle := h.base_le
      have hc : ¬decide (digitValue c<b)=true := by
        rw [decide_eq_true_eq]
        omega
      exact ⟨List.takeWhile_cons_of_neg hc,List.dropWhile_cons_of_neg hc⟩
  rw [List.takeWhile_append_of_pos hd,List.dropWhile_append_of_pos hd,hrest.1,hrest.2]
  exact ⟨List.append_nil s,rfl⟩

/-- Digits begin with no white space. -/
theorem Digits.dropWhile (h : Digits b s n) (rest : List Char) :
    (s++rest).dropWhile isspace=s++rest := by
  obtain ⟨d,ds,rfl⟩ := List.exists_cons_of_ne_nil h.nonempty
  have hspace := (h.ne List.mem_cons_self).1
  exact List.dropWhile_cons_of_neg (by rw [hspace]; exact Bool.false_ne_true)

/-- A number is read up to where its digits stop. -/
theorem Digits.readNumber (h : Digits b s n) (hs : Stops rest) :
    readNumber b (s++rest)=some (strtoul false n,rest) := by
  obtain ⟨hnumber,hrest⟩ := h.span hs
  have hsign : ((s++rest).head?==some '-')=false := by
    obtain ⟨d,ds,rfl⟩ := List.exists_cons_of_ne_nil h.nonempty
    have hminus := (h.ne List.mem_cons_self).2.1
    simpa using hminus
  simp only [Scanf.readNumber,h.dropWhile,h.dropSign,h.dropX hs,hnumber,hrest,hsign]
  rw [if_neg h.nonempty,h.value_eq]

/-- A number with a minus sign is read with all its digits. -/
theorem Digits.readNumber_minus (h : Digits b s n) (hs : Stops rest) :
    Scanf.readNumber b ('-'::s++rest)=some (strtoul true n,rest) := by
  obtain ⟨hnumber,hrest⟩ := h.span hs
  have hspace : ('-'::s++rest).dropWhile isspace= '-'::s++rest :=
    List.dropWhile_cons_of_neg (by decide)
  have hsign : Scanf.dropSign ('-'::s++rest)=s++rest := if_pos (.inl rfl)
  simp only [Scanf.readNumber,hspace,hsign,h.dropX hs,hnumber,hrest]
  rw [if_neg h.nonempty,h.value_eq]
  rfl

/-- Directives that read a text with some text behind it, and what they store. -/
def Reads (ds : List Directive) (text : List Char) (vs : List Value) (rest : List Char) : Prop :=
  ∀ more,sscanf (ds++more) (text++rest)=vs++sscanf more rest

/-- An empty format reads nothing and stores nothing. -/
theorem Reads.nil : Reads [] [] [] rest := fun _ => rfl

/-- Two formats in a row read what both read and store what both store. -/
theorem Reads.append (h : Reads ds text vs (text'++rest)) (h' : Reads ds' text' vs' rest) :
    Reads (ds++ds') (text++text') (vs++vs') rest := by
  intro more
  rw [List.append_assoc,List.append_assoc,List.append_assoc,h,h']

/-- A format that reads a text stores its values, whatever comes behind the text. -/
theorem Reads.sscanf (h : Reads ds text vs rest) : sscanf ds (text++rest)=vs := by
  have hall : Scanf.sscanf (ds++[]) (text++rest)=vs++[] := h []
  rwa [List.append_nil,List.append_nil] at hall

/-- A character in the format reads the same character. -/
theorem Reads.lit (h : Reads ds text vs rest) : Reads (.lit c::ds) (c::text) vs rest :=
  fun more => (if_pos rfl).trans (h more)

/-- A blank in the format reads the white space before something else. -/
theorem Reads.space {blanks : List Char} (hblanks : ∀ c∈blanks,isspace c=true)
    (htext : (text++rest).dropWhile isspace=text++rest) (h : Reads ds text vs rest) :
    Reads (.space::ds) (blanks++text) vs rest := by
  intro more
  rw [List.append_assoc,List.cons_append,sscanf_space,List.dropWhile_append_of_pos hblanks,htext,h]

/-- A blank in the format reads a blank before a number. -/
theorem Digits.blank (h : Digits b s n) (hr : Reads ds s vs rest) :
    Reads (.space::ds) (' '::s) vs rest :=
  Reads.space (List.forall_mem_singleton.mpr rfl) (h.dropWhile rest) hr

/-- A blank in the format reads all blanks of a padded text. -/
theorem Reads.padded (htext : (text++rest).dropWhile isspace=text++rest)
    (h : Reads ds text vs rest) (width : ℕ) : Reads (.space::ds) (padded width text) vs rest := by
  refine Reads.space ?_ htext h
  intro c hc
  rw [(List.mem_replicate.mp hc).2]
  rfl

/-- A blank in the format reads one blank more. -/
theorem Reads.blank (h : Reads (.space::ds) text vs rest) :
    Reads (.space::ds) (' '::text) vs rest := h

/-- A conversion that is skipped reads a number and stores nothing. -/
theorem Digits.skip (h : Digits b s n) (hs : Stops rest) :
    Reads [.skip b] s [] rest := by
  intro more
  exact sscanf_skip (h.readNumber hs)

/-- A negative number that is not stored. -/
theorem Digits.skip_minus (h : Digits b s n) (hs : Stops rest) :
    Reads [.skip b] ('-'::s) [] rest := by
  intro more
  exact sscanf_skip (h.readNumber_minus hs)

/-- A number with its sign starts with no white space. -/
theorem signedDecimal_dropWhile (z : ℤ) (rest : List Char) :
    (signedDecimal z++rest).dropWhile isspace=signedDecimal z++rest := by
  unfold signedDecimal
  split
  · exact List.dropWhile_cons_of_neg (by decide)
  · exact (digits_decimal _).dropWhile rest

/-- A number with its sign that is not stored. -/
theorem signedDecimal_skip (z : ℤ) (hs : Stops rest) :
    Reads [.skip 10] (signedDecimal z) [] rest := by
  unfold signedDecimal
  split
  · exact (digits_decimal _).skip_minus hs
  · exact (digits_decimal _).skip hs

/-- A long that is not too large is itself. -/
theorem strtoul_of_lt (h : n<2^64) : strtoul false n=UInt64.ofNat n :=
  (if_neg (Nat.not_le.mpr h)).trans (if_neg Bool.false_ne_true)

/-- A number that fits is stored as an `unsigned long`. -/
theorem Digits.ulong {n : UInt64} (h : Digits b s n.toNat) (hs : Stops rest) :
    Reads [.ulong b] s [.ulong n] rest := by
  intro more
  rw [List.cons_append,sscanf_ulong (h.readNumber hs),strtoul_of_lt n.toNat_lt,
    UInt64.ofNat_toNat]
  rfl

/-- A number that fits is stored as an `unsigned int`. -/
theorem Digits.uint {n : UInt32} (h : Digits b s n.toNat) (hs : Stops rest) :
    Reads [.uint b] s [.uint n] rest := by
  have hlong : (UInt64.ofNat n.toNat).toUInt32=n := by
    apply UInt32.toNat_inj.mp
    have := n.toNat_lt
    rw [UInt64.toNat_toUInt32,UInt64.toNat_ofNat']
    omega
  intro more
  rw [List.cons_append,sscanf_uint (h.readNumber hs),
    strtoul_of_lt (n.toNat_lt.trans (by decide)),hlong]
  rfl

/-- A run of characters that has the width of its directive. -/
theorem reads_set {accepts : Char→Bool} (hs : s≠[]) (h : ∀ c∈s,accepts c=true)
    (rest : List Char) : Reads [.set s.length accepts] s [.text s] rest := by
  intro more
  have htake : ((s++rest).take s.length).takeWhile accepts=s := by
    rw [List.take_left]
    exact List.takeWhile_eq_self_iff.mpr h
  rw [List.cons_append,sscanf_set htake hs,List.drop_left]
  rfl

/-- A run of single characters is a prefix. -/
theorem sscanf_lits (text : List Char) (ds : List Directive) (s : List Char) :
    sscanf (text.map .lit++ds) s=
      if text<+:s then sscanf ds (s.drop text.length) else [] := by
  induction text generalizing s with
  | nil => exact (if_pos List.nil_prefix).symm
  | cons c text ih =>
    cases s with
    | nil => exact (if_neg (by simp)).symm
    | cons d s =>
      rw [List.map_cons,List.cons_append,sscanf_lit]
      by_cases hd : d=c
      · subst hd
        rw [List.head?_cons,if_pos rfl,List.tail_cons,ih]
        simp only [List.cons_prefix_cons,true_and,List.length_cons,List.drop_succ_cons]
      · rw [List.head?_cons,if_neg (by simpa using hd),if_neg]
        rw [List.cons_prefix_cons]
        exact fun h => hd h.1.symm

end IftopColor.Scanf
