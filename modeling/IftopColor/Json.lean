import Mathlib.Data.Rat.Defs
import Mathlib.Algebra.Order.Field.Rat
import Mathlib.Algebra.Order.Field.Power
import Mathlib.Data.List.TakeWhile

/-!
# Documents in JSON

The grammar of JSON texts as relations between a text and what it stands for, and
a decoder. The decoder returns the value of every text that the grammar derives,
so that a text stands for at most one value. Escaped surrogates have to come in
pairs, and an object keeps its members in the order of the text.
-/

namespace IftopColor.Json

/-- What a document stands for. -/
inductive Value where
  | null
  | bool (b : Bool)
  | number (q : ℚ)
  | string (cs : List Char)
  | array (vs : List Value)
  | object (ms : List (List Char×Value))

/-- White space. -/
def isWs (c : Char) : Bool := c= ' ' || c= '\t' || c= '\n' || c= '\r'

/-- A run of white space. -/
abbrev Ws (w : List Char) : Prop := ∀ c∈w,isWs c

/-- A run of digits. -/
abbrev Digits (ds : List Char) : Prop := ∀ c∈ds,c.isDigit

/-- Number of a run of decimal digits. -/
def natValue (ds : List Char) : ℕ := Nat.ofDigitChars 10 ds 0

/-- Integer part of a number, without leading zeros. -/
inductive IntText : List Char→ℕ→Prop where
  | zero : IntText ['0'] 0
  | digits {d : Char} {ds : List Char} (hds : Digits (d::ds)) (hd : d≠ '0') :
    IntText (d::ds) (natValue (d::ds))

/-- Fraction of a number. -/
inductive FracText : List Char→ℚ→Prop where
  | absent : FracText [] 0
  | present {ds : List Char} (hds : Digits ds) (hne : ds≠[]) :
    FracText ('.'::ds) (natValue ds/10^ds.length)

/-- Exponent of a number. -/
inductive ExpText : List Char→ℤ→Prop where
  | absent : ExpText [] 0
  | plain {e : Char} {ds : List Char} (he : e= 'e' ∨ e= 'E') (hds : Digits ds) (hne : ds≠[]) :
    ExpText (e::ds) (natValue ds)
  | plus {e : Char} {ds : List Char} (he : e= 'e' ∨ e= 'E') (hds : Digits ds) (hne : ds≠[]) :
    ExpText (e:: '+'::ds) (natValue ds)
  | minus {e : Char} {ds : List Char} (he : e= 'e' ∨ e= 'E') (hds : Digits ds) (hne : ds≠[]) :
    ExpText (e:: '-'::ds) (-natValue ds)

/-- A number. -/
inductive NumberText : List Char→ℚ→Prop where
  | pos {i f x : List Char} {n : ℕ} {q : ℚ} {e : ℤ} (hi : IntText i n) (hf : FracText f q)
    (hx : ExpText x e) : NumberText (i++(f++x)) ((n+q)*10^e)
  | neg {i f x : List Char} {n : ℕ} {q : ℚ} {e : ℤ} (hi : IntText i n) (hf : FracText f q)
    (hx : ExpText x e) : NumberText ('-'::(i++(f++x))) (-((n+q)*10^e))

/-- Characters that are escaped by a backslash and one character. -/
def simpleEscape (e : Char) : Option Char :=
  if e= '"' ∨ e= '\\' ∨ e= '/' then some e
  else if e= 'b' then some '\x08'
  else if e= 'f' then some '\x0c'
  else if e= 'n' then some '\n'
  else if e= 'r' then some '\r'
  else if e= 't' then some '\t'
  else none

/-- Value of a hexadecimal digit. -/
def hexValue (c : Char) : Option ℕ :=
  if c.isDigit then some (c.toNat-48)
  else if 'a' ≤ c ∧ c ≤ 'f' then some (c.toNat-87)
  else if 'A' ≤ c ∧ c ≤ 'F' then some (c.toNat-55)
  else none

/-- Value of four hexadecimal digits. -/
def hexNumber (ds : List Char) : Option ℕ :=
  if ds.length=4 then (ds.mapM hexValue).map fun vs => vs.foldl (fun n v => 16*n+v) 0 else none

/-- First half of a surrogate pair. -/
def isHigh (n : ℕ) : Bool := 0xd800≤n && n<0xdc00

/-- Second half of a surrogate pair. -/
def isLow (n : ℕ) : Bool := 0xdc00≤n && n<0xe000

/-- The character of a surrogate pair. -/
def pairChar (n k : ℕ) : Char := Char.ofNat (0x10000+(n-0xd800)*0x400+(k-0xdc00))

/-- One character between the quotes of a string. -/
inductive CharText : List Char→Char→Prop where
  | plain {c : Char} (hc : 0x20≤c.toNat) (hq : c≠ '"') (hb : c≠ '\\') : CharText [c] c
  | escape {e c : Char} (h : simpleEscape e=some c) : CharText ['\\',e] c
  | unicode {ds : List Char} {n : ℕ} (h : hexNumber ds=some n) (hh : isHigh n=false)
    (hl : isLow n=false) : CharText ('\\':: 'u'::ds) (Char.ofNat n)
  | pair {ds es : List Char} {n k : ℕ} (hn : hexNumber ds=some n) (hh : isHigh n=true)
    (hk : hexNumber es=some k) (hl : isLow k=true) :
    CharText ('\\':: 'u'::(ds++ '\\':: 'u'::es)) (pairChar n k)

/-- What stands between the quotes of a string. -/
inductive CharsText : List Char→List Char→Prop where
  | nil : CharsText [] []
  | cons {t s : List Char} {c : Char} {cs : List Char} (h : CharText t c) (hs : CharsText s cs) :
    CharsText (t++s) (c::cs)

/-- A string with its quotes. -/
inductive StringText : List Char→List Char→Prop where
  | mk {s cs : List Char} (h : CharsText s cs) : StringText ('"'::(s++['"'])) cs

mutual

/-- A value. -/
inductive ValueText : List Char→Value→Prop where
  | null : ValueText "null".toList .null
  | true : ValueText "true".toList (.bool true)
  | false : ValueText "false".toList (.bool false)
  | number {s : List Char} {q : ℚ} (h : NumberText s q) : ValueText s (.number q)
  | string {s cs : List Char} (h : StringText s cs) : ValueText s (.string cs)
  | emptyArray {w : List Char} (hw : Ws w) : ValueText ('['::(w++[']'])) (.array [])
  | array {s : List Char} {vs : List Value} (h : ElementsText s vs) :
    ValueText ('['::(s++[']'])) (.array vs)
  | emptyObject {w : List Char} (hw : Ws w) : ValueText ('\x7b'::(w++['\x7d'])) (.object [])
  | object {s : List Char} {ms : List (List Char×Value)} (h : MembersText s ms) :
    ValueText ('\x7b'::(s++['\x7d'])) (.object ms)

/-- A value between white space. -/
inductive ElementText : List Char→Value→Prop where
  | mk {a s b : List Char} {v : Value} (ha : Ws a) (h : ValueText s v) (hb : Ws b) :
    ElementText (a++(s++b)) v

/-- Values between commas. -/
inductive ElementsText : List Char→List Value→Prop where
  | one {s : List Char} {v : Value} (h : ElementText s v) : ElementsText s [v]
  | cons {s t : List Char} {v : Value} {vs : List Value} (h : ElementText s v)
    (ht : ElementsText t vs) : ElementsText (s++ ','::t) (v::vs)

/-- A name and a value. -/
inductive MemberText : List Char→List Char×Value→Prop where
  | mk {a s b t k : List Char} {v : Value} (ha : Ws a) (hs : StringText s k) (hb : Ws b)
    (h : ElementText t v) : MemberText (a++(s++(b++ ':'::t))) (k,v)

/-- Members between commas. -/
inductive MembersText : List Char→List (List Char×Value)→Prop where
  | one {s : List Char} {m : List Char×Value} (h : MemberText s m) : MembersText s [m]
  | cons {s t : List Char} {m : List Char×Value} {ms : List (List Char×Value)}
    (h : MemberText s m) (ht : MembersText t ms) : MembersText (s++ ','::t) (m::ms)

end

/-- A document. -/
abbrev DocumentText (s : List Char) (v : Value) : Prop := ElementText s v

/-- Skip white space. -/
def skipWs (s : List Char) : List Char := s.dropWhile isWs

/-- Read digits, at least one. -/
def decodeDigits (s : List Char) : Option (List Char×List Char) :=
  if s.takeWhile Char.isDigit=[] then none
  else some (s.takeWhile Char.isDigit,s.dropWhile Char.isDigit)

/-- Read an integer part. -/
def decodeInt : List Char→Option (ℕ×List Char)
  | [] => none
  | c::r =>
    if c= '0' then some (0,r)
    else (decodeDigits (c::r)).map fun (ds,r) => (natValue ds,r)

/-- Read a fraction. -/
def decodeFrac : List Char→Option (ℚ×List Char)
  | [] => some (0,[])
  | c::r =>
    if c= '.' then (decodeDigits r).map fun (ds,r) => (natValue ds/10^ds.length,r)
    else some (0,c::r)

/-- Read the exponent behind its letter. -/
def decodeSigned : List Char→Option (ℤ×List Char)
  | [] => none
  | c::r =>
    if c= '+' then (decodeDigits r).map fun (ds,r) => (natValue ds,r)
    else if c= '-' then (decodeDigits r).map fun (ds,r) => (-natValue ds,r)
    else (decodeDigits (c::r)).map fun (ds,r) => (natValue ds,r)

/-- Read an exponent. -/
def decodeExp : List Char→Option (ℤ×List Char)
  | [] => some (0,[])
  | c::r => if c= 'e' ∨ c= 'E' then decodeSigned r else some (0,c::r)

/-- Read a number without sign. -/
def decodeUnsigned (s : List Char) : Option (ℚ×List Char) := do
  let (n,r)←decodeInt s
  let (q,r)←decodeFrac r
  let (e,r)←decodeExp r
  return ((n+q)*10^e,r)

/-- Read a number. -/
def decodeNumber : List Char→Option (ℚ×List Char)
  | [] => none
  | c::r =>
    if c= '-' then (decodeUnsigned r).map fun (q,r) => (-q,r) else decodeUnsigned (c::r)

/-- Read the digits of an escaped code unit, and of a second one after the first
half of a surrogate pair. -/
def decodeUnicode (s : List Char) : Option (Char×List Char) := do
  let n←hexNumber (s.take 4)
  if isHigh n then
    if (s.drop 4).take 2=['\\','u'] then
      let k←hexNumber ((s.drop 6).take 4)
      if isLow k then some (pairChar n k,s.drop 10) else none
    else none
  else if isLow n then none
  else some (Char.ofNat n,s.drop 4)

/-- Read what follows a backslash. -/
def decodeEscape : List Char→Option (Char×List Char)
  | [] => none
  | e::r => if e= 'u' then decodeUnicode r else (simpleEscape e).map fun c => (c,r)

/-- Read a character of a string. -/
def decodeChar : List Char→Option (Char×List Char)
  | [] => none
  | c::r =>
    if c= '\\' then decodeEscape r
    else if c.toNat<0x20 then none
    else some (c,r)

/-- Read the characters of a string up to its closing quote. -/
def decodeChars : ℕ→List Char→Option (List Char×List Char)
  | 0,_ => none
  | _,[] => none
  | fuel+1,c::r =>
    if c= '"' then some ([],r)
    else do
      let (x,r)←decodeChar (c::r)
      let (xs,r)←decodeChars fuel r
      return (x::xs,r)

/-- Read a string behind its opening quote. -/
def decodeString (s : List Char) : Option (List Char×List Char) := decodeChars s.length s

/-- Read a fixed name. -/
def decodeLiteral (name : List Char) (v : Value) (s : List Char) : Option (Value×List Char) :=
  if name.isPrefixOf s then some (v,s.drop name.length) else none

/-- Read a name and the colon behind it. -/
def decodeKey (s : List Char) : Option (List Char×List Char) :=
  match skipWs s with
  | [] => none
  | c::r =>
    if c= '"' then do
      let (k,r)←decodeString r
      match skipWs r with
      | [] => none
      | c::r => if c= ':' then some (k,r) else none
    else none

mutual

/-- Read a value; `fuel` bounds the depth of the calls. -/
def decodeValue : ℕ→List Char→Option (Value×List Char)
  | 0,_ => none
  | _,[] => none
  | fuel+1,c::r =>
    if c= '"' then (decodeString r).map fun (cs,r) => (.string cs,r)
    else if c= '[' then
      if (skipWs r).head?=some ']' then some (.array [],(skipWs r).tail)
      else (decodeElements fuel r).map fun (vs,r) => (.array vs,r)
    else if c= '\x7b' then
      if (skipWs r).head?=some '\x7d' then some (.object [],(skipWs r).tail)
      else (decodeMembers fuel r).map fun (ms,r) => (.object ms,r)
    else if c= 'n' then decodeLiteral "null".toList .null (c::r)
    else if c= 't' then decodeLiteral "true".toList (.bool true) (c::r)
    else if c= 'f' then decodeLiteral "false".toList (.bool false) (c::r)
    else (decodeNumber (c::r)).map fun (q,r) => (.number q,r)

/-- Read the values of an array and its bracket. -/
def decodeElements : ℕ→List Char→Option (List Value×List Char)
  | 0,_ => none
  | fuel+1,s => do
    let (v,r)←decodeValue fuel (skipWs s)
    match skipWs r with
    | [] => none
    | c::r =>
      if c= ',' then (decodeElements fuel r).map fun (vs,r) => (v::vs,r)
      else if c= ']' then some ([v],r)
      else none

/-- Read the members of an object and its brace. -/
def decodeMembers : ℕ→List Char→Option (List (List Char×Value)×List Char)
  | 0,_ => none
  | fuel+1,s => do
    let (k,r)←decodeKey s
    let (v,r)←decodeValue fuel (skipWs r)
    match skipWs r with
    | [] => none
    | c::r =>
      if c= ',' then (decodeMembers fuel r).map fun (ms,r) => ((k,v)::ms,r)
      else if c= '\x7d' then some ([(k,v)],r)
      else none

end

/-- Decode a document: a value with nothing but white space around it. -/
def decode (s : List Char) : Option Value := do
  let (v,r)←decodeValue s.length (skipWs s)
  if skipWs r=[] then some v else none

variable {s t r ds : List Char}

/-- The text does not start with a digit. -/
def NoDigit (r : List Char) : Prop := ∀ c∈r.head?,c.isDigit=false

/-- The text does not start with a character that continues a number. -/
def Stops (r : List Char) : Prop := ∀ c∈r.head?,c.isDigit=false ∧ c≠ '.' ∧ c≠ 'e' ∧ c≠ 'E'

/-- A predicate that fails at the head takes nothing. -/
theorem takeWhile_stop {p : Char→Bool} (h : ∀ c∈r.head?,p c=false) :
    r.takeWhile p=[] ∧ r.dropWhile p=r := by
  cases r with
  | nil => exact ⟨rfl,rfl⟩
  | cons c r =>
    have hc := h c rfl
    simp [hc]

/-- A run of digits is read to its end. -/
theorem decodeDigits_append (hds : Digits ds) (hne : ds≠[]) (hr : NoDigit r) :
    decodeDigits (ds++r)=some (ds,r) := by
  obtain ⟨htake,hdrop⟩ := takeWhile_stop hr
  unfold decodeDigits
  rw [List.takeWhile_append_of_pos hds,List.dropWhile_append_of_pos hds,htake,hdrop,
    List.append_nil,if_neg hne]

/-- The decoder reads an integer part as its number and stops behind it. -/
theorem decodeInt_append {n : ℕ} (h : IntText s n) (hr : NoDigit r) :
    decodeInt (s++r)=some (n,r) := by
  cases h with
  | zero => rfl
  | digits hds hd =>
    have hread := decodeDigits_append hds (List.cons_ne_nil _ _) hr
    rw [List.cons_append] at hread
    rw [List.cons_append,decodeInt,if_neg hd,hread]
    rfl

/-- The decoder reads a fraction as its number and stops behind it. -/
theorem decodeFrac_append {q : ℚ} (h : FracText s q) (hr : ∀ c∈r.head?,c.isDigit=false ∧ c≠ '.') :
    decodeFrac (s++r)=some (q,r) := by
  cases h with
  | absent =>
    cases r with
    | nil => rfl
    | cons c r => rw [List.nil_append,decodeFrac,if_neg (hr c rfl).2]
  | present hds hne =>
    rw [List.cons_append,decodeFrac,if_pos rfl,
      decodeDigits_append hds hne (fun c hc => (hr c hc).1)]
    rfl

/-- A digit differs from every character that is none. -/
theorem ne_of_isDigit {c d : Char} (hc : c.isDigit) (hd : d.isDigit=false) : c≠d := by
  rintro rfl
  rw [hd] at hc
  exact Bool.false_ne_true hc

/-- The decoder reads an exponent as its number and stops behind it. -/
theorem decodeExp_append {e : ℤ} (h : ExpText s e) (hr : Stops r) :
    decodeExp (s++r)=some (e,r) := by
  have hdigit : NoDigit r := fun c hc => (hr c hc).1
  cases h with
  | absent =>
    cases r with
    | nil => rfl
    | cons c r =>
      obtain ⟨-,-,he,hE⟩ := hr c rfl
      rw [List.nil_append,decodeExp,if_neg (by simp [he,hE])]
  | plain he hds hne =>
    obtain ⟨d,ds,rfl⟩ := List.exists_cons_of_ne_nil hne
    have hd : d.isDigit := hds d (List.mem_cons_self ..)
    have hread := decodeDigits_append hds hne hdigit
    rw [List.cons_append] at hread
    rw [List.cons_append,List.cons_append,decodeExp,if_pos he,decodeSigned,
      if_neg (ne_of_isDigit hd (by decide)),if_neg (ne_of_isDigit hd (by decide)),hread]
    rfl
  | plus he hds hne =>
    rw [List.cons_append,List.cons_append,decodeExp,if_pos he,decodeSigned,if_pos rfl,
      decodeDigits_append hds hne hdigit]
    rfl
  | minus he hds hne =>
    rw [List.cons_append,List.cons_append,decodeExp,if_pos he,decodeSigned,if_neg (by decide),
      if_pos rfl,decodeDigits_append hds hne hdigit]
    rfl

/-- An exponent starts with its letter. -/
theorem expText_head {x : List Char} {e : ℤ} (h : ExpText x e) (hr : Stops r) :
    ∀ c∈(x++r).head?,c.isDigit=false ∧ c≠ '.' := by
  have hletter {c : Char} (he : c= 'e' ∨ c= 'E') : c.isDigit=false ∧ c≠ '.' := by
    rcases he with rfl|rfl <;> decide
  intro c hc
  cases h with
  | absent => exact ⟨(hr c hc).1,(hr c hc).2.1⟩
  | plain he =>
    obtain rfl := Option.some.inj hc
    exact hletter he
  | plus he =>
    obtain rfl := Option.some.inj hc
    exact hletter he
  | minus he =>
    obtain rfl := Option.some.inj hc
    exact hletter he

/-- Fraction and exponent do not start with a digit. -/
theorem fracText_head {f x : List Char} {q : ℚ} {e : ℤ} (hf : FracText f q) (hx : ExpText x e)
    (hr : Stops r) : NoDigit (f++(x++r)) := by
  intro c hc
  cases hf with
  | absent => exact (expText_head hx hr c hc).1
  | present =>
    obtain rfl := Option.some.inj hc
    decide

/-- The three parts of a number are read. -/
theorem decodeUnsigned_append {i f x : List Char} {n : ℕ} {q : ℚ} {e : ℤ} (hi : IntText i n)
    (hf : FracText f q) (hx : ExpText x e) (hr : Stops r) :
    decodeUnsigned (i++(f++x)++r)=some ((n+q)*10^e,r) := by
  have hassoc : i++(f++x)++r=i++(f++(x++r)) := by simp
  rw [hassoc,decodeUnsigned,decodeInt_append hi (fracText_head hf hx hr)]
  dsimp only [Option.bind_eq_bind,Option.bind_some]
  rw [decodeFrac_append hf (expText_head hx hr)]
  dsimp only [Option.bind_some]
  rw [decodeExp_append hx hr]
  rfl

/-- An integer part starts with a digit. -/
theorem intText_head {i : List Char} {n : ℕ} (h : IntText i n) : ∃ d ds,i=d::ds ∧ d.isDigit := by
  cases h with
  | zero => exact ⟨'0',[],rfl,rfl⟩
  | digits hds => exact ⟨_,_,rfl,hds _ (List.mem_cons_self ..)⟩

/-- The decoder reads a number as its value and stops behind it. -/
theorem decodeNumber_append {q : ℚ} (h : NumberText s q) (hr : Stops r) :
    decodeNumber (s++r)=some (q,r) := by
  cases h with
  | pos hi hf hx =>
    have hread := decodeUnsigned_append hi hf hx hr
    obtain ⟨d,ds,rfl,hd⟩ := intText_head hi
    rw [List.cons_append,List.cons_append] at hread ⊢
    rw [decodeNumber,if_neg (ne_of_isDigit hd (by decide)),hread]
  | neg hi hf hx =>
    rw [List.cons_append,decodeNumber,if_pos rfl,decodeUnsigned_append hi hf hx hr]
    rfl

/-- Four digits are as many as are read. -/
theorem hexNumber_length {n : ℕ} (h : hexNumber ds=some n) : ds.length=4 := by
  unfold hexNumber at h
  split at h
  · assumption
  · exact absurd h (by simp)

/-- The decoder reads a character of a string, plain or escaped. -/
theorem decodeChar_append {c : Char} (h : CharText t c) (r : List Char) :
    decodeChar (t++r)=some (c,r) := by
  cases h with
  | plain hc hq hb =>
    rw [List.cons_append,decodeChar,if_neg hb,if_neg (by omega)]
    rfl
  | escape h =>
    rename_i e
    have he : e≠ 'u' := by
      rintro rfl
      have hnone : simpleEscape 'u'=none := by decide
      rw [hnone] at h
      exact Option.some_ne_none c h.symm
    rw [List.cons_append,List.cons_append,decodeChar,if_pos rfl,decodeEscape,if_neg he,h]
    rfl
  | unicode h hh hl =>
    rename_i ds n
    have hlen := hexNumber_length h
    have htake : (ds++r).take 4=ds := by rw [←hlen,List.take_left]
    have hdrop : (ds++r).drop 4=r := by rw [←hlen,List.drop_left]
    simp [decodeChar,decodeEscape,decodeUnicode,htake,hdrop,h,hh,hl]
  | pair hn hh hk hl =>
    rename_i ds es n k
    have hlen := hexNumber_length hn
    have hlen' := hexNumber_length hk
    have htake : (ds++ '\\':: 'u'::(es++r)).take 4=ds := by rw [←hlen,List.take_left]
    have hdrop : (ds++ '\\':: 'u'::(es++r)).drop 4= '\\':: 'u'::(es++r) := by
      rw [←hlen,List.drop_left]
    have hdrop6 : (ds++ '\\':: 'u'::(es++r)).drop 6=es++r := by
      have h6 : ((ds++ '\\':: 'u'::(es++r)).drop 4).drop 2=es++r := by rw [hdrop]; rfl
      rwa [List.drop_drop] at h6
    have hdrop10 : (ds++ '\\':: 'u'::(es++r)).drop 10=r := by
      have h10 : ((ds++ '\\':: 'u'::(es++r)).drop 6).drop 4=r := by
        rw [hdrop6,←hlen',List.drop_left]
      rwa [List.drop_drop] at h10
    have htake' : (es++r).take 4=es := by rw [←hlen',List.take_left]
    simp [decodeChar,decodeEscape,decodeUnicode,htake,hdrop,hdrop6,hdrop10,htake',hn,hh,hk,hl]

/-- A character of a string takes room, and is no quote. -/
theorem charText_cons {c : Char} (h : CharText t c) : ∃ d u,t=d::u ∧ d≠ '"' := by
  cases h with
  | plain _ hq => exact ⟨c,[],rfl,hq⟩
  | escape => exact ⟨_,_,rfl,by decide⟩
  | unicode => exact ⟨_,_,rfl,by decide⟩
  | pair => exact ⟨_,_,rfl,by decide⟩

/-- The decoder reads the characters of a string and stops behind the quote. -/
theorem decodeChars_append {cs : List Char} (h : CharsText s cs) (r : List Char) {fuel : ℕ}
    (hfuel : s.length<fuel) : decodeChars fuel (s++ '"'::r)=some (cs,r) := by
  induction h generalizing fuel with
  | nil =>
    obtain ⟨fuel,rfl⟩ := Nat.exists_eq_succ_of_ne_zero (Nat.ne_of_gt hfuel)
    rfl
  | cons hc hs ih =>
    rename_i t s c cs
    obtain ⟨fuel,rfl⟩ := Nat.exists_eq_succ_of_ne_zero (Nat.ne_of_gt (Nat.zero_lt_of_lt hfuel))
    have hread := decodeChar_append hc (s++ '"'::r)
    obtain ⟨d,u,rfl,hd⟩ := charText_cons hc
    have hrest : decodeChars fuel (s++ '"'::r)=some (cs,r) :=
      ih (by simp only [List.length_append,List.length_cons] at hfuel; omega)
    rw [List.append_assoc,List.cons_append] at *
    rw [decodeChars,if_neg hd,hread]
    dsimp only [Option.bind_eq_bind,Option.bind_some]
    rw [hrest]
    rfl

/-- A string is read behind its opening quote. -/
theorem decodeString_append {cs : List Char} (h : CharsText s cs) (r : List Char) :
    decodeString (s++ '"'::r)=some (cs,r) :=
  decodeChars_append h r (by simp only [List.length_append,List.length_cons]; omega)

/-- A character that ends a value. -/
def isEnd (c : Char) : Bool := c= ',' || c= ']' || c= '\x7d'

/-- What may follow a value: white space, a character that ends it, or nothing. -/
def Follows (r : List Char) : Prop := ∀ c∈r.head?,isWs c || isEnd c

/-- What ends a value is no white space. -/
theorem isWs_of_isEnd {d : Char} (hd : isEnd d) : isWs d=false := by
  simp only [isEnd,Bool.or_eq_true,decide_eq_true_eq] at hd
  rcases hd with (rfl|rfl)|rfl <;> rfl

/-- What follows a value does not continue a number. -/
theorem Follows.stops (h : Follows r) : Stops r := by
  intro c hc
  have hchar := h c hc
  simp only [isWs,isEnd,Bool.or_eq_true,decide_eq_true_eq] at hchar
  rcases hchar with ((( rfl|rfl)|rfl)|rfl)|((rfl|rfl)|rfl) <;> decide

/-- White space is skipped up to another character. -/
theorem skipWs_append {a : List Char} (ha : Ws a) (hr : ∀ c∈r.head?,isWs c=false) :
    skipWs (a++r)=r := by
  unfold skipWs
  rw [List.dropWhile_append_of_pos ha]
  exact (takeWhile_stop hr).2

/-- A value starts with a character that is neither white space nor ends a value. -/
theorem valueText_head {v : Value} (h : ValueText s v) :
    ∃ c t,s=c::t ∧ isWs c=false ∧ isEnd c=false := by
  cases h with
  | null => exact ⟨_,_,rfl,rfl,rfl⟩
  | true => exact ⟨_,_,rfl,rfl,rfl⟩
  | false => exact ⟨_,_,rfl,rfl,rfl⟩
  | number h =>
    cases h with
    | pos hi =>
      obtain ⟨d,ds,rfl,hd⟩ := intText_head hi
      refine ⟨d,_,rfl,?_,?_⟩
      · simp [isWs,ne_of_isDigit hd]
      · simp [isEnd,ne_of_isDigit hd]
    | neg => exact ⟨_,_,rfl,rfl,rfl⟩
  | string h =>
    cases h with
    | mk => exact ⟨_,_,rfl,rfl,rfl⟩
  | emptyArray => exact ⟨_,_,rfl,rfl,rfl⟩
  | array => exact ⟨_,_,rfl,rfl,rfl⟩
  | emptyObject => exact ⟨_,_,rfl,rfl,rfl⟩
  | object => exact ⟨_,_,rfl,rfl,rfl⟩

/-- White space before a value is skipped. -/
theorem skipWs_value {a : List Char} {v : Value} (ha : Ws a) (h : ValueText s v) (r : List Char) :
    skipWs (a++(s++r))=s++r := by
  obtain ⟨c,t,rfl,hc,-⟩ := valueText_head h
  refine skipWs_append ha fun d hd => ?_
  obtain rfl := Option.some.inj hd
  exact hc

/-- White space may follow a value, with the character that ends it behind. -/
theorem follows_append {b : List Char} {d : Char} (hb : Ws b) (hd : isEnd d) (r : List Char) :
    Follows (b++d::r) ∧ skipWs (b++d::r)=d::r := by
  refine ⟨?_,?_⟩
  · intro c hc
    cases b with
    | nil =>
      obtain rfl := Option.some.inj hc
      simp [hd]
    | cons x b =>
      obtain rfl := Option.some.inj hc
      simp [hb _ (List.mem_cons_self ..)]
  · refine skipWs_append hb fun c hc => ?_
    obtain rfl := Option.some.inj hc
    exact isWs_of_isEnd hd

/-- The decoder reads a name and goes on behind its colon. -/
theorem decodeKey_append {a b k : List Char} (ha : Ws a) (hs : StringText s k) (hb : Ws b)
    (r : List Char) : decodeKey (a++(s++(b++ ':'::r)))=some (k,r) := by
  cases hs with
  | mk h =>
    rename_i s
    have hstart : skipWs (a++('"'::(s++['"'])++(b++ ':'::r)))= '"'::(s++ '"'::(b++ ':'::r)) := by
      rw [skipWs_append ha]
      · simp
      · intro c hc
        obtain rfl := Option.some.inj hc
        rfl
    have hcolon : skipWs (b++ ':'::r)= ':'::r := by
      refine skipWs_append hb fun c hc => ?_
      obtain rfl := Option.some.inj hc
      rfl
    rw [decodeKey,hstart]
    dsimp only
    rw [if_pos rfl,decodeString_append h]
    dsimp only [Option.bind_eq_bind,Option.bind_some]
    rw [hcolon]
    rfl

/-- With this fuel, all values up to a length are read. -/
def ReadsValues (fuel : ℕ) : Prop :=
  ∀ {s : List Char} {v : Value},ValueText s v→s.length≤fuel→∀ {r},Follows r→
    decodeValue fuel (s++r)=some (v,r)

/-- With this fuel, the values of arrays are read. -/
def ReadsElements (fuel : ℕ) : Prop :=
  ∀ {s : List Char} {vs : List Value},ElementsText s vs→s.length<fuel→∀ r,
    decodeElements fuel (s++ ']'::r)=some (vs,r)

/-- With this fuel, the members of objects are read. -/
def ReadsMembers (fuel : ℕ) : Prop :=
  ∀ {s : List Char} {ms : List (List Char×Value)},MembersText s ms→s.length<fuel→∀ r,
    decodeMembers fuel (s++ '\x7d'::r)=some (ms,r)

variable {fuel : ℕ}

/-- A value between white space is read. -/
theorem ReadsValues.element (hv : ReadsValues fuel) {v : Value} (h : ElementText s v)
    (hfuel : s.length≤fuel) {d : Char} (hd : isEnd d) (r : List Char) :
    ∃ r',decodeValue fuel (skipWs (s++d::r))=some (v,r') ∧ skipWs r'=d::r := by
  cases h with
  | mk ha h hb =>
    rename_i a s b
    obtain ⟨hfollows,hskip⟩ := follows_append hb hd r
    have hassoc : a++(s++b)++d::r=a++(s++(b++d::r)) := by simp
    refine ⟨b++d::r,?_,hskip⟩
    rw [hassoc,skipWs_value ha h]
    simp only [List.length_append] at hfuel
    exact hv h (by omega) hfollows

/-- One round of the loop over the values of an array. -/
theorem readsElements_succ (hv : ReadsValues fuel) (he : ReadsElements fuel) :
    ReadsElements (fuel+1) := by
  intro s vs h hfuel r
  cases h with
  | one h =>
    obtain ⟨r',hread,hskip⟩ := hv.element h (by omega) (d:= ']') rfl r
    rw [decodeElements,hread]
    dsimp only [Option.bind_eq_bind,Option.bind_some]
    rw [hskip]
    rfl
  | cons h ht =>
    rename_i s t v vs
    simp only [List.length_append,List.length_cons] at hfuel
    have hassoc : s++ ','::t++ ']'::r=s++ ','::(t++ ']'::r) := by simp
    obtain ⟨r',hread,hskip⟩ := hv.element h (by omega) (d:= ',') rfl (t++ ']'::r)
    rw [hassoc,decodeElements,hread]
    dsimp only [Option.bind_eq_bind,Option.bind_some]
    rw [hskip]
    dsimp only
    rw [if_pos rfl,he ht (by omega) r]
    rfl

/-- The decoder reads a name and its value if values of this size are read. -/
theorem ReadsValues.member (hv : ReadsValues fuel) {m : List Char×Value} (h : MemberText s m)
    (hfuel : s.length≤fuel) {d : Char} (hd : isEnd d) (r : List Char) :
    ∃ u r',decodeKey (s++d::r)=some (m.1,u) ∧ decodeValue fuel (skipWs u)=some (m.2,r') ∧
      skipWs r'=d::r := by
  cases h with
  | mk ha hs hb h =>
    rename_i a s b t k v
    have hassoc : a++(s++(b++ ':'::t))++d::r=a++(s++(b++ ':'::(t++d::r))) := by simp
    simp only [List.length_append,List.length_cons] at hfuel
    obtain ⟨r',hread,hskip⟩ := hv.element h (by omega) hd r
    exact ⟨t++d::r,r',by rw [hassoc,decodeKey_append ha hs hb],hread,hskip⟩

/-- One round of the loop over the members of an object. -/
theorem readsMembers_succ (hv : ReadsValues fuel) (hm : ReadsMembers fuel) :
    ReadsMembers (fuel+1) := by
  intro s ms h hfuel r
  cases h with
  | one h =>
    rename_i m
    obtain ⟨u,r',hkey,hread,hskip⟩ := hv.member h (by omega) (d:= '\x7d') rfl r
    rw [decodeMembers,hkey]
    dsimp only [Option.bind_eq_bind,Option.bind_some]
    rw [hread]
    dsimp only [Option.bind_some]
    rw [hskip]
    rfl
  | cons h ht =>
    rename_i s t m ms
    simp only [List.length_append,List.length_cons] at hfuel
    have hassoc : s++ ','::t++ '\x7d'::r=s++ ','::(t++ '\x7d'::r) := by simp
    obtain ⟨u,r',hkey,hread,hskip⟩ := hv.member h (by omega) (d:= ',') rfl (t++ '\x7d'::r)
    rw [hassoc,decodeMembers,hkey]
    dsimp only [Option.bind_eq_bind,Option.bind_some]
    rw [hread]
    dsimp only [Option.bind_some]
    rw [hskip]
    dsimp only
    rw [if_pos rfl,hm ht (by omega) r]
    rfl

/-- A text that does not end a value, behind white space. -/
def Begins (s : List Char) : Prop := ∀ r,∃ c t,skipWs (s++r)=c::t ∧ isEnd c=false

/-- The values of an array do not start with its bracket. -/
theorem elementsText_begins {vs : List Value} (h : ElementsText s vs) : Begins s := by
  have helement {s : List Char} {v : Value} (h : ElementText s v) : Begins s := by
    cases h with
    | mk ha h hb =>
      rename_i a s b
      intro r
      obtain ⟨c,t,hs,-,hc⟩ := valueText_head h
      refine ⟨c,t++(b++r),?_,hc⟩
      rw [List.append_assoc,List.append_assoc,skipWs_value ha h,hs]
      rfl
  cases h with
  | one h => exact helement h
  | cons h ht =>
    rename_i s t v vs
    intro r
    rw [List.append_assoc]
    exact helement h _

/-- The members of an object do not start with its brace. -/
theorem membersText_begins {ms : List (List Char×Value)} (h : MembersText s ms) : Begins s := by
  have hmember {s : List Char} {m : List Char×Value} (h : MemberText s m) : Begins s := by
    cases h with
    | mk ha hs hb h =>
      rename_i a q b t k v
      intro r
      cases hs with
      | mk hs =>
        rename_i q
        refine ⟨'"',q++['"']++(b++ ':'::t)++r,?_,rfl⟩
        rw [List.append_assoc]
        refine skipWs_append ha fun c hc => ?_
        obtain rfl := Option.some.inj hc
        rfl
  cases h with
  | one h => exact hmember h
  | cons h ht =>
    rename_i s t m ms
    intro r
    rw [List.append_assoc]
    exact hmember h _

/-- A text that begins a value does not have a closing character as its head. -/
theorem Begins.head_ne (h : Begins s) {d : Char} (hd : isEnd d) (r : List Char) :
    (skipWs (s++r)).head?≠some d := by
  obtain ⟨c,t,hskip,hc⟩ := h r
  rw [hskip]
  intro hcd
  obtain rfl := Option.some.inj hcd
  rw [hd] at hc
  exact Bool.false_ne_true hc.symm

/-- The decoder reads a fixed name as its value. -/
theorem decodeLiteral_append (name : List Char) (v : Value) (r : List Char) :
    decodeLiteral name v (name++r)=some (v,r) := by
  have hprefix : name.isPrefixOf (name++r)=true := by simp
  rw [decodeLiteral,if_pos hprefix,List.drop_left]

/-- Other characters than those of the fixed cases start a number. -/
theorem decodeValue_number {q : ℚ} (h : NumberText s q) (hr : Stops r) :
    decodeValue (fuel+1) (s++r)=some (.number q,r) := by
  have hread := decodeNumber_append h hr
  have hhead : ∃ c t,s=c::t ∧ (c.isDigit ∨ c= '-') := by
    cases h with
    | pos hi =>
      obtain ⟨d,ds,rfl,hd⟩ := intText_head hi
      exact ⟨d,_,rfl,.inl hd⟩
    | neg => exact ⟨_,_,rfl,.inr rfl⟩
  obtain ⟨c,t,rfl,hc⟩ := hhead
  have hne {d : Char} (hd : d.isDigit=false) (hm : d≠ '-') : c≠d := by
    rcases hc with hc|rfl
    · exact ne_of_isDigit hc hd
    · exact hm.symm
  rw [List.cons_append] at hread ⊢
  rw [decodeValue,if_neg (hne (by decide) (by decide)),if_neg (hne (by decide) (by decide)),
    if_neg (hne (by decide) (by decide)),if_neg (hne (by decide) (by decide)),
    if_neg (hne (by decide) (by decide)),if_neg (hne (by decide) (by decide)),hread]
  rfl

/-- If elements and members of a size are read, values of the next size are. -/
theorem readsValues_succ (he : ReadsElements fuel) (hm : ReadsMembers fuel) :
    ReadsValues (fuel+1) := by
  intro s v h hfuel r hr
  cases h with
  | null => exact decodeLiteral_append "null".toList .null r
  | true => exact decodeLiteral_append "true".toList (.bool true) r
  | false => exact decodeLiteral_append "false".toList (.bool false) r
  | number h => exact decodeValue_number h hr.stops
  | string h =>
    cases h with
    | mk h =>
      rename_i s
      have hassoc : '"'::(s++['"'])++r= '"'::(s++ '"'::r) := by simp
      rw [hassoc,decodeValue,if_pos rfl,decodeString_append h]
      rfl
  | emptyArray hw =>
    rename_i w
    have hassoc : '['::(w++[']'])++r= '['::(w++ ']'::r) := by simp
    have hskip := (follows_append hw (d:= ']') rfl r).2
    rw [hassoc,decodeValue,if_neg (by decide),if_pos rfl,hskip]
    rfl
  | array h =>
    rename_i s vs
    have hassoc : '['::(s++[']'])++r= '['::(s++ ']'::r) := by simp
    simp only [List.length_append,List.length_cons,List.length_nil] at hfuel
    rw [hassoc,decodeValue,if_neg (by decide),if_pos rfl,
      if_neg ((elementsText_begins h).head_ne rfl _),he h (by omega) r]
    rfl
  | emptyObject hw =>
    rename_i w
    have hassoc : '\x7b'::(w++['\x7d'])++r= '\x7b'::(w++ '\x7d'::r) := by simp
    have hskip := (follows_append hw (d:= '\x7d') rfl r).2
    rw [hassoc,decodeValue,if_neg (by decide),if_neg (by decide),if_pos rfl,hskip]
    rfl
  | object h =>
    rename_i s ms
    have hassoc : '\x7b'::(s++['\x7d'])++r= '\x7b'::(s++ '\x7d'::r) := by simp
    simp only [List.length_append,List.length_cons,List.length_nil] at hfuel
    rw [hassoc,decodeValue,if_neg (by decide),if_neg (by decide),if_pos rfl,
      if_neg ((membersText_begins h).head_ne rfl _),hm h (by omega) r]
    rfl

/-- Fuel for the length of a text is enough. -/
theorem reads (fuel : ℕ) : ReadsValues fuel ∧ ReadsElements fuel ∧ ReadsMembers fuel := by
  induction fuel with
  | zero =>
    refine ⟨?_,?_,?_⟩
    · intro s v h hfuel
      obtain ⟨c,t,rfl,-⟩ := valueText_head h
      exact absurd hfuel (by simp)
    · intro s vs h hfuel
      exact absurd hfuel (Nat.not_lt_zero _)
    · intro s ms h hfuel
      exact absurd hfuel (Nat.not_lt_zero _)
  | succ fuel ih =>
    obtain ⟨hv,he,hm⟩ := ih
    exact ⟨readsValues_succ he hm,readsElements_succ hv he,readsMembers_succ hv hm⟩

/-- Every document is decoded to what it stands for. -/
theorem decode_document {v : Value} (h : DocumentText s v) : decode s=some v := by
  cases h with
  | mk ha h hb =>
    rename_i a s b
    have hfollows : Follows b := by
      intro c hc
      simp [hb c (List.mem_of_mem_head? hc)]
    have hread : decodeValue (a++(s++b)).length (s++b)=some (v,b) :=
      (reads _).1 h (by simp only [List.length_append]; omega) hfollows
    have hblank : skipWs b=[] := List.dropWhile_eq_nil_iff.mpr hb
    rw [decode,skipWs_value ha h,hread]
    dsimp only [Option.bind_eq_bind,Option.bind_some]
    rw [if_pos hblank]

/-- The numeral of a positive number does not start with a zero. -/
theorem toDigits_head {n : ℕ} (hn : 0 < n) : ∃ d ds,Nat.toDigits 10 n=d::ds ∧ d≠ '0' := by
  induction n using Nat.strong_induction_on with
  | h n ih =>
    by_cases hlt : n<10
    · have hall : ∀ n<10,0 < n→Nat.digitChar n≠ '0' := by decide
      exact ⟨n.digitChar,[],Nat.toDigits_of_lt_base hlt,hall n hlt hn⟩
    · obtain ⟨d,ds,hd,hne⟩ := ih (n/10) (by omega) (by omega)
      refine ⟨d,ds++[(n%10).digitChar],?_,hne⟩
      rw [Nat.toDigits_of_base_le (by omega) (by omega),hd]
      rfl

/-- A decimal numeral is the integer part of its number. -/
theorem intText_toDigits (n : ℕ) : IntText (Nat.toDigits 10 n) n := by
  rcases Nat.eq_zero_or_pos n with rfl|hn
  · exact .zero
  · obtain ⟨d,ds,hd,hne⟩ := toDigits_head hn
    have hvalue : natValue (d::ds)=n := by
      rw [←hd]
      exact Nat.ofDigitChars_ten_toDigits
    have hdigits : Digits (d::ds) := by
      intro c hc
      rw [←hd] at hc
      exact Nat.isDigit_of_mem_toDigits (by omega) (by omega) hc
    have htext := IntText.digits hdigits hne
    rwa [hvalue,←hd] at htext

/-- A decimal numeral is a text of its number. -/
theorem valueText_nat (n : ℕ) : ValueText (Nat.toDigits 10 n) (.number n) := by
  have h := NumberText.pos (intText_toDigits n) .absent .absent
  simp only [List.append_nil,add_zero,zpow_zero,mul_one] at h
  exact .number h

/-- A decimal numeral behind a minus sign is a text of the negative number. -/
theorem valueText_neg (n : ℕ) : ValueText ('-'::Nat.toDigits 10 n) (.number (-n)) := by
  have h := NumberText.neg (intText_toDigits n) .absent .absent
  simp only [List.append_nil,add_zero,zpow_zero,mul_one] at h
  exact .number h

/-- A character that stands for itself in a string. -/
def isPlain (c : Char) : Bool := 0x20≤c.toNat && c≠ '"' && c≠ '\\'

/-- A text of plain characters between quotes is a string. -/
theorem stringText_plain {cs : List Char} (h : ∀ c∈cs,isPlain c) :
    StringText ('"'::(cs++['"'])) cs := by
  refine .mk ?_
  induction cs with
  | nil => exact .nil
  | cons c cs ih =>
    have hc := h c (List.mem_cons_self ..)
    simp only [isPlain,Bool.and_eq_true,decide_eq_true_eq] at hc
    exact .cons (.plain hc.1.1 hc.1.2 hc.2) (ih fun x hx => h x (List.mem_cons_of_mem _ hx))

end IftopColor.Json
