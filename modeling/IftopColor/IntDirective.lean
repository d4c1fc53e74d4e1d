import IftopColor.ConfigFile
import IftopColor.NetFilter
import IftopColor.TextBuffer

/-!
# Integer directives

`config_get_int` converts the string of a directive with `strtol` and stores the long in
the int before it looks at what was converted. A numeral that fits an int is read
exactly. A numeral between an int and a long is read as another number, and after a
failure the int holds the truncated result, unless that is what it held before.
-/

namespace IftopColor.IntDirective

open ConfigFile NetFilter TextBuffer

/-- `LONG_MAX`. -/
def longMax : ℤ := 2^63-1

/-- `LONG_MIN`. -/
def longMin : ℤ := -2^63

/-- What `strtol` leaves. -/
structure Conversion where
  /-- The result. -/
  value : ℤ
  /-- The string at `endptr`. -/
  endptr : CString
  /-- Whether `errno` was set to `ERANGE`. -/
  erange : Bool

/-- The string behind its sign. -/
def afterSign (s : CString) : CString :=
  if s.head?=some '-' ∨ s.head?=some '+' then s.tail else s

/-- A number with a sign. -/
def signed (negative : Bool) (n : ℕ) : ℤ := if negative then -n else n

/-- `strtol` with base ten. -/
def strtol (str : CString) : Conversion :=
  let s := str.dropWhile isspace
  let digits := (afterSign s).takeWhile Char.isDigit
  let endptr := (afterSign s).dropWhile Char.isDigit
  let n := signed (s.head?==some '-') (digitsValue digits)
  if digits=[] then ⟨0,str,false⟩
  else if n<longMin then ⟨longMin,endptr,true⟩
  else if longMax<n then ⟨longMax,endptr,true⟩
  else ⟨n,endptr,false⟩

/-- An int that a long is stored in. -/
def toInt (n : ℤ) : ℤ := n.bmod (2^32)

/-- `config_get_int`, with the int that `value` points to. -/
def configGetInt (config : StringMap) (directive : List Char) (value : Option ℤ) : ℤ×Option ℤ :=
  match value with
  | none => (-1,none)
  | some previous =>
    match configGetString config directive with
    | none => (0,some previous)
    | some [] => (-1,some previous)
    | some str =>
      let long := strtol str
      if long.endptr≠[] then (-1,some (toInt long.value))
      else (if long.erange then -1 else 1,some (toInt long.value))

/-- `options_config_get_int`. -/
def optionsConfigGetInt (config : StringMap) (name : List Char) (value : Option ℤ) : ℤ×Option ℤ :=
  match configGetString config name with
  | none => (0,value)
  | some _ => (1,(configGetInt config name value).2)

/-- A decimal numeral behind optional white space and an optional sign. -/
def Numeral (str : CString) (n : ℤ) : Prop :=
  ∃ blanks digits : CString,(∀ c∈blanks,isspace c=true) ∧ digits≠[] ∧
    (∀ c∈digits,c.isDigit=true) ∧
    ((str=blanks++digits ∨ str=blanks++ '+'::digits) ∧ n=digitsValue digits ∨
      str=blanks++ '-'::digits ∧ n= -digitsValue digits)

/-- Numbers of an int. -/
def FitsInt (n : ℤ) : Prop := -2^31≤ n ∧ n<2^31

/-- Numbers of a long. -/
def FitsLong (n : ℤ) : Prop := longMin≤ n ∧ n≤ longMax

/-- A directive is read exactly or not at all. -/
structure Exact (config : StringMap) (directive : List Char) (previous : ℤ) : Prop where
  /-- Success is reported for numerals that fit an int. -/
  success : (configGetInt config directive (some previous)).1=1 ↔
    ∃ str n,configGetString config directive=some str ∧ Numeral str n ∧ FitsInt n
  /-- A numeral that fits is stored. -/
  value : ∀ str n,configGetString config directive=some str→Numeral str n→FitsInt n→
    (configGetInt config directive (some previous)).2=some n
  /-- Otherwise there is no directive or it is refused, and nothing is stored. -/
  unchanged : (configGetInt config directive (some previous)).1≠1→
    (configGetInt config directive (some previous)).1∈[-1,0] ∧
      (configGetInt config directive (some previous)).2=some previous
  /-- An option keeps its number or has the number of the file. -/
  option : (optionsConfigGetInt config directive (some previous)).2=some previous ∨
    ∃ str n,configGetString config directive=some str ∧ Numeral str n ∧
      (optionsConfigGetInt config directive (some previous)).2=some n

/-- Strings that are read exactly or not at all: the empty one, numerals that fit an int, and other
strings that are no numerals of a long if the int holds already what is stored for them. -/
def Readable (str : CString) (previous : ℤ) : Prop :=
  str=[] ∨ (∃ n,Numeral str n ∧ FitsInt n) ∨
    (∀ n,Numeral str n→¬FitsLong n) ∧ toInt (strtol str).value=previous

variable {str : CString} {n previous : ℤ}

/-- A number that fits in an `int` fits in a `long`. -/
theorem FitsInt.long (h : FitsInt n) : FitsLong n := by
  unfold FitsInt at h
  unfold FitsLong longMin longMax
  omega

/-- A number that fits in an `int` is stored as it is. -/
theorem FitsInt.toInt_eq (h : FitsInt n) : toInt n=n := by
  unfold FitsInt at h
  exact Int.bmod_eq_of_le (by omega) (by omega)

/-- A digit is neither a sign nor white space. -/
theorem digit_spec {c : Char} (h : c.isDigit=true) : isspace c=false ∧ c≠ '-' ∧ c≠ '+' := by
  refine ⟨?_,?_,?_⟩
  · have hlow : 48≤ c.toNat := (Char.isDigit_iff_toNat.mp h).1
    have hspace : c≠ ' ' := by
      rintro rfl
      cases h
    have hrange : ¬(9≤ c.toNat ∧ c.toNat≤13) := by omega
    rw [isspace,beq_false_of_ne hspace,decide_eq_false hrange]
    rfl
  · rintro rfl
    cases h
  · rintro rfl
    cases h

/-- What `strtol` finds in a string behind its white space. -/
structure Signed (rest : CString) (n : ℤ) : Prop where
  /-- There are digits. -/
  some : afterSign rest≠[]
  /-- There is nothing but digits. -/
  digits : ∀ c∈afterSign rest,c.isDigit=true
  /-- The number. -/
  value : n=signed (rest.head?==Option.some '-') (digitsValue (afterSign rest))

/-- A numeral is white space and a number with an optional sign. -/
theorem numeral_iff : Numeral str n ↔
    ∃ blanks rest,str=blanks++rest ∧ (∀ c∈blanks,isspace c=true) ∧ Signed rest n := by
  constructor
  · rintro ⟨blanks,digits,hb,hne,hd,(⟨hstr,hn⟩|⟨hstr,hn⟩)⟩
    · rcases hstr with hstr|hstr
      · obtain ⟨d,ds,rfl⟩ := List.exists_cons_of_ne_nil hne
        obtain ⟨-,hminus,hplus⟩ := digit_spec (hd d List.mem_cons_self)
        have hafter : afterSign (d::ds)=d::ds := by simp [afterSign,hminus,hplus]
        refine ⟨blanks,d::ds,hstr,hb,⟨by rwa [hafter],by rwa [hafter],?_⟩⟩
        rw [hafter,hn]
        simp [signed,hminus]
      · exact ⟨blanks,_,hstr,hb,⟨hne,hd,hn⟩⟩
    · exact ⟨blanks,_,hstr,hb,⟨hne,hd,hn⟩⟩
  · rintro ⟨blanks,rest,hstr,hb,hs⟩
    refine ⟨blanks,afterSign rest,hb,hs.some,hs.digits,?_⟩
    have hvalue := hs.value
    cases rest with
    | nil => exact absurd rfl hs.some
    | cons c cs =>
      by_cases hminus : c= '-'
      · subst hminus
        exact .inr ⟨hstr,hvalue⟩
      · have hn : n=digitsValue (afterSign (c::cs)) := by simpa [signed,hminus] using hvalue
        refine .inl ⟨?_,hn⟩
        by_cases hplus : c= '+'
        · subst hplus
          exact .inr hstr
        · refine .inl ?_
          have hafter : afterSign (c::cs)=c::cs := by simp [afterSign,hminus,hplus]
          rwa [hafter]

/-- A numeral has at least one digit. -/
theorem Numeral.ne_nil (h : Numeral str n) : str≠[] := by
  rintro rfl
  obtain ⟨blanks,rest,hstr,-,hs⟩ := numeral_iff.mp h
  rw [(List.append_eq_nil_iff.mp hstr.symm).2] at hs
  exact hs.some rfl

/-- A number begins with no white space. -/
theorem Signed.dropWhile {rest : CString} (hs : Signed rest n) : rest.dropWhile isspace=rest := by
  have hsome := hs.some
  have hdigits := hs.digits
  cases rest with
  | nil => rfl
  | cons c cs =>
    refine List.dropWhile_cons_of_neg ?_
    by_cases hsign : c= '-' ∨ c= '+'
    · rcases hsign with rfl|rfl <;> decide
    · have hafter : afterSign (c::cs)=c::cs := by
        rw [not_or] at hsign
        simp [afterSign,hsign.1,hsign.2]
      rw [hafter] at hdigits
      simp [(digit_spec (hdigits c List.mem_cons_self)).1]

/-- `strtol` on a numeral: the number, or the end of the longs with `ERANGE`. -/
theorem strtol_numeral (h : Numeral str n) :
    strtol str=if n<longMin then ⟨longMin,[],true⟩ else if longMax<n then ⟨longMax,[],true⟩
      else ⟨n,[],false⟩ := by
  obtain ⟨blanks,rest,hstr,hb,hs⟩ := numeral_iff.mp h
  have hskip : str.dropWhile isspace=rest := by
    rw [hstr,List.dropWhile_append_of_pos hb,hs.dropWhile]
  have htake : (afterSign rest).takeWhile Char.isDigit=afterSign rest :=
    List.takeWhile_eq_self_iff.mpr hs.digits
  have hdrop : (afterSign rest).dropWhile Char.isDigit=[] :=
    List.dropWhile_eq_nil_iff.mpr hs.digits
  simp only [strtol,hskip,htake,hdrop]
  rw [if_neg hs.some,← hs.value]

/-- A string that `strtol` converts up to its end is a numeral. -/
theorem numeral_of_endptr (hne : str≠[]) (h : (strtol str).endptr=[]) : ∃ n,Numeral str n := by
  have hsplit : str.takeWhile isspace++str.dropWhile isspace=str := List.takeWhile_append_dropWhile
  have hb : ∀ c∈str.takeWhile isspace,isspace c=true := fun _ => List.mem_takeWhile_imp
  by_cases hdigits : (afterSign (str.dropWhile isspace)).takeWhile Char.isDigit=[]
  · simp only [strtol,if_pos hdigits] at h
    exact absurd h hne
  · have hend : (afterSign (str.dropWhile isspace)).dropWhile Char.isDigit=[] := by
      simp only [strtol,if_neg hdigits] at h
      split at h
      · exact h
      · split at h <;> exact h
    refine ⟨_,numeral_iff.mpr ⟨_,_,hsplit.symm,hb,⟨fun hnil => hdigits ?_,?_,rfl⟩⟩⟩
    · rw [hnil]
      rfl
    · exact List.dropWhile_eq_nil_iff.mp hend

/-- A numeral of a long is converted exactly. -/
theorem strtol_long (h : Numeral str n) (hl : FitsLong n) : strtol str=⟨n,[],false⟩ := by
  obtain ⟨hlow,hhigh⟩ := hl
  rw [strtol_numeral h,if_neg (Int.not_lt.mpr hlow),if_neg (Int.not_lt.mpr hhigh)]

/-- `ERANGE` is set for the other numerals. -/
theorem strtol_erange (h : Numeral str n) (hl : ¬FitsLong n) :
    (strtol str).endptr=[] ∧ (strtol str).erange=true := by
  rw [strtol_numeral h]
  by_cases hlow : n<longMin
  · rw [if_pos hlow]
    exact ⟨rfl,rfl⟩
  · have hhigh : longMax<n := by
      unfold FitsLong at hl
      omega
    rw [if_neg hlow,if_pos hhigh]
    exact ⟨rfl,rfl⟩

/-- A string is the numeral of one long only. -/
theorem numeral_unique {m : ℤ} (h : Numeral str n) (hl : FitsLong n) (h' : Numeral str m)
    (hl' : FitsLong m) : m=n := by
  have he := (strtol_long h hl).symm.trans (strtol_long h' hl')
  exact (congrArg Conversion.value he).symm

variable {config : StringMap} {directive : List Char}

/-- For a directive that is not there nothing is stored and 0 is returned. -/
theorem configGetInt_absent (h : configGetString config directive=none) :
    configGetInt config directive (some previous)=(0,some previous) := by
  simp only [configGetInt,h]

/-- For an empty string nothing is stored and -1 is returned. -/
theorem configGetInt_empty (h : configGetString config directive=some []) :
    configGetInt config directive (some previous)=(-1,some previous) := by
  simp only [configGetInt,h]

/-- For any other string the value is stored, and -1 is returned if it is refused. -/
theorem configGetInt_some (previous : ℤ) (h : configGetString config directive=some str)
    (hne : str≠[]) :
    configGetInt config directive (some previous)=
      (if (strtol str).endptr≠[] then -1 else if (strtol str).erange then -1 else 1,
        some (toInt (strtol str).value)) := by
  obtain ⟨c,cs,rfl⟩ := List.exists_cons_of_ne_nil hne
  simp only [configGetInt,h]
  split <;> rfl

/-- An option is stored as the directive is, whatever `config_get_int` returns. -/
theorem optionsConfigGetInt_value (config : StringMap) (directive : List Char) (previous : ℤ) :
    (optionsConfigGetInt config directive (some previous)).2=
      (configGetInt config directive (some previous)).2 := by
  cases h : configGetString config directive with
  | none => simp only [optionsConfigGetInt,configGetInt,h]
  | some str => simp only [optionsConfigGetInt,h]

/-- A directive with no numeral of an int is exact if nothing is stored. -/
theorem exact_of_refused
    (hno : ∀ str n,configGetString config directive=some str→Numeral str n→¬FitsInt n) {r : ℤ}
    (hr : configGetInt config directive (some previous)=(r,some previous)) (h : r∈[-1,0]) :
    Exact config directive previous := by
  have hne : r≠1 := by
    rintro rfl
    exact absurd h (by decide)
  have hopt := optionsConfigGetInt_value config directive previous
  rw [hr] at hopt
  refine ⟨?_,fun str n hs hnum hfit => absurd hfit (hno str n hs hnum),fun _ => ?_,.inl hopt⟩
  · rw [hr]
    exact ⟨fun h1 => absurd h1 hne,fun ⟨str,n,hs,hnum,hfit⟩ => absurd hfit (hno str n hs hnum)⟩
  · rw [hr]
    exact ⟨h,rfl⟩

/-- A numeral of an int is read exactly. -/
theorem exact_of_int (h : configGetString config directive=some str) (hnum : Numeral str n)
    (hfit : FitsInt n) : Exact config directive previous := by
  have hr := configGetInt_some previous h hnum.ne_nil
  rw [strtol_long hnum hfit.long,hfit.toInt_eq] at hr
  have hr' : configGetInt config directive (some previous)=(1,some n) := hr
  have hopt := optionsConfigGetInt_value config directive previous
  rw [hr'] at hopt
  refine ⟨?_,fun str' m hs hm hmfit => ?_,fun hno => ?_,.inr ⟨str,n,h,hnum,hopt⟩⟩
  · rw [hr']
    exact ⟨fun _ => ⟨str,n,h,hnum,hfit⟩,fun _ => rfl⟩
  · rw [h] at hs
    cases hs
    rw [hr',numeral_unique hnum hfit.long hm hmfit.long]
  · rw [hr'] at hno
    exact absurd rfl hno

/-- A string that is no numeral of a long is refused. -/
theorem exact_of_kept (h : configGetString config directive=some str)
    (hlong : ∀ n,Numeral str n→¬FitsLong n) (hsame : toInt (strtol str).value=previous) :
    Exact config directive previous := by
  have hno : ∀ str' n,configGetString config directive=some str'→Numeral str' n→¬FitsInt n := by
    intro str' n hs hnum hfit
    rw [h] at hs
    cases hs
    exact hlong n hnum hfit.long
  by_cases hne : str=[]
  · rw [hne] at h
    exact exact_of_refused hno (configGetInt_empty h) (by decide)
  refine exact_of_refused (r:= -1) hno ?_ (by decide)
  rw [configGetInt_some previous h hne,hsame]
  by_cases hend : (strtol str).endptr=[]
  · obtain ⟨n,hnum⟩ := numeral_of_endptr hne hend
    rw [if_neg (not_not.mpr hend),(strtol_erange hnum (hlong n hnum)).2,if_pos rfl]
  · rw [if_pos hend]

/-- A string that is exact is of one of these kinds. -/
theorem readable_of_exact (h : configGetString config directive=some str)
    (he : Exact config directive previous) : Readable str previous := by
  by_cases hne : str=[]
  · exact .inl hne
  have hr := configGetInt_some previous h hne
  by_cases hint : ∃ n,Numeral str n ∧ FitsInt n
  · exact .inr (.inl hint)
  have hfail : (configGetInt config directive (some previous)).1≠1 := by
    intro h1
    obtain ⟨str',n,hs,hnum,hfit⟩ := he.success.mp h1
    rw [h] at hs
    cases hs
    exact hint ⟨n,hnum,hfit⟩
  refine .inr (.inr ⟨fun n hnum hl => hfail ?_,?_⟩)
  · rw [hr,strtol_long hnum hl]
    rfl
  · have hv := (he.unchanged hfail).2
    rw [hr] at hv
    exact Option.some.inj hv

/-- A directive is read exactly or not at all if it is not there, and otherwise for strings of
these kinds only. -/
theorem config_get_int_exact_iff (config : StringMap) (directive : List Char) (previous : ℤ) :
    Exact config directive previous ↔
      ∀ str,configGetString config directive=some str→Readable str previous := by
  constructor
  · exact fun he str h => readable_of_exact h he
  · intro hall
    cases h : configGetString config directive with
    | none =>
      exact exact_of_refused (fun str n hs => by rw [h] at hs; cases hs) (configGetInt_absent h)
        (by decide)
    | some str =>
      rcases hall str h with rfl|⟨n,hnum,hfit⟩|⟨hlong,hsame⟩
      · refine exact_of_refused (fun str n hs hnum => ?_) (configGetInt_empty h) (by decide)
        rw [h] at hs
        cases hs
        exact absurd rfl hnum.ne_nil
      · exact exact_of_int h hnum hfit
      · exact exact_of_kept h hlong hsame

/-- Two to the power of 32 is read as zero, and success is reported. -/
theorem config_get_int_truncates :
    let config := configSetString configInit "val".toList "4294967296".toList
    configGetInt config "val".toList (some 5)=(1,some 0) ∧
      ¬Exact config "val".toList 5 := by
  intro config
  have hr : configGetInt config "val".toList (some 5)=(1,some 0) := by decide
  refine ⟨hr,fun h => ?_⟩
  obtain ⟨str,n,hs,hnum,hfit⟩ := h.success.mp (by rw [hr])
  have hv := h.value str n hs hnum hfit
  have hlong := strtol_long hnum hfit.long
  have hs' : configGetString config "val".toList=some "4294967296".toList := by decide
  rw [hs'] at hs
  cases hs
  have hn := congrArg Conversion.value hlong
  have hfour : (strtol "4294967296".toList).value=4294967296 := by decide
  rw [hfour] at hn
  unfold FitsInt at hfit
  have : n=4294967296 := hn.symm
  omega

end IftopColor.IntDirective
