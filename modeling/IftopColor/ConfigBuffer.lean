import IftopColor.ConfigFile
import IftopColor.TextBuffer
import IftopColor.GuardedRun

/-!
# The line buffer of the configuration reader

`read_config_file` on its buffer of `MAX_CONFIG_LINE` bytes: what `fgets` stores,
the loops over `line + strlen(line) - 1` and the cuts of the parser, with every
access checked. Against the reader on texts it follows that the only access out
of bounds is a look at the byte before the buffer, after `fgets` has stored a NUL
at its start.
-/

namespace IftopColor.ConfigBuffer

open ConfigFile TextBuffer SearchTree GuardedRun

/-- `fgets` into the buffer at an index, and what is left of the file. -/
def fgetsInto (buf : Buffer) (p n : ℤ) (input : List Char) :
    Except Fault (Option (Buffer×List Char)) :=
  if n≤0 then .ok none
  else if n=1 then do
    let buf ← put maxConfigLine buf p nul
    return some (buf,input)
  else if input=[] then .ok none
  else do
    let buf ← store maxConfigLine buf p (upToNewline (n-1).toNat input).1
    return some (buf,(upToNewline (n-1).toNat input).2)

/-- `for (; end > line && *end == '\\n'; *(end--) = 0)`. -/
def stripLoop : ℕ→ℤ→Buffer→Except Fault Buffer
  | 0,_,_ => .error .endless
  | fuel+1,last,buf =>
    if last>0 then do
      let c ← get maxConfigLine buf last
      if c= '\n' then do
        let buf ← put maxConfigLine buf last nul
        stripLoop fuel (last-1) buf
      else return buf
    else return buf

/-- The loop from the end of the text. -/
def stripLine (buf : Buffer) : Except Fault Buffer := do
  let n ← strlen maxConfigLine buf 0
  stripLoop (maxConfigLine+1) (n-1) buf

/-- The loop that gets continuation lines over the final backslash. -/
def continueLine : ℕ→Buffer→List Char→Except Fault (Buffer×List Char)
  | 0,_,_ => .error .endless
  | fuel+1,buf,input => do
    let n ← strlen maxConfigLine buf 0
    let c ← get maxConfigLine buf (n-1)
    if c= '\\' then do
      match ← fgetsInto buf (n-1) (maxConfigLine-n) input with
      | none => return (buf,input)
      | some (buf,rest) => do
        let buf ← stripLine buf
        continueLine fuel buf rest
    else return (buf,input)

/-- `while (strchr(" \\t", *end) && end > value) --end`; `strchr` finds the
terminator too. -/
def trimLoop (buf : Buffer) (value : ℤ) : ℕ→ℤ→Except Fault ℤ
  | 0,_ => .error .endless
  | fuel+1,last => do
    let c ← get maxConfigLine buf last
    if (isBlank c || c=nul) ∧ last>value then trimLoop buf value fuel (last-1) else return last

/-- Cut the text at a hash sign or a newline. -/
def cutComment (buf : Buffer) : Except Fault Buffer := do
  let comment ← scanFrom maxConfigLine (fun c => c= '#' || c= '\n' || c=nul) buf 0
  let c ← get maxConfigLine buf comment
  if c=nul then return buf else put maxConfigLine buf comment nul

/-- Key and value behind a key, given the index of the colon. -/
def parseValue (buf : Buffer) (key colon : ℤ) : Except Fault (Option (List Char×List Char)) := do
  let last ← scanFrom maxConfigLine (fun c => isBlank c || c= ':' || c=nul) buf key
  if last=key then return none
  else do
    let buf ← put maxConfigLine buf last nul
    let value ← scanFrom maxConfigLine (fun c => !isBlank c) buf (colon+1)
    let n ← strlen maxConfigLine buf value
    let last ← trimLoop buf value (maxConfigLine+1) (value+n-1)
    let buf ← put maxConfigLine buf (last+1) nul
    let key ← textAt maxConfigLine buf key
    let value ← textAt maxConfigLine buf value
    return some (key,value)

/-- Key and value of the text in the buffer, if it has both a colon and a key. -/
def parseLine (buf : Buffer) : Except Fault (Option (List Char×List Char)) := do
  let buf ← cutComment buf
  let key ← scanFrom maxConfigLine (fun c => !isBlank c) buf 0
  let colon ← scanFrom maxConfigLine (fun c => c= ':' || c=nul) buf 0
  let c ← get maxConfigLine buf colon
  if c=nul then return none else parseValue buf key colon

/-- What a parsed line does to the configuration. -/
def applyParsed (parsed : Option (List Char×List Char)) (config : StringMap) : StringMap :=
  match parsed with
  | none => config
  | some (key,value) =>
    if isCfgdirectiveValid key then insert strcmp key value config else config

/-- The loop over the lines of a file; the buffer is cleared after each of them. -/
def readBuffer : ℕ→Buffer→List Char→StringMap→Except Fault StringMap
  | 0,_,_,_ => .error .endless
  | fuel+1,buf,input,config => do
    match ← fgetsInto buf 0 maxConfigLine input with
    | none => return config
    | some (buf,rest) => do
      let buf ← stripLine buf
      let (buf,rest) ← continueLine (input.length+maxConfigLine) buf rest
      let parsed ← parseLine buf
      readBuffer fuel (fun _ => nul) rest (applyParsed parsed config)

variable {buf : Buffer} {line input : List Char}

/-- The end of a value is found in the buffer, at the byte before the value at least. -/
theorem trimLoop_ok (buf : Buffer) {value fuel k : ℕ} (hv : 0<value) (hk : value≤k+1)
    (hs : k< maxConfigLine) (hf : k<value+fuel) :
    ∃ e : ℤ,trimLoop buf value (fuel+1) k=.ok e ∧ (value : ℤ)-1≤e ∧ e≤k := by
  induction fuel generalizing k with
  | zero =>
    refine ⟨k,?_,by omega,by omega⟩
    rw [trimLoop,get_ok hs,ok_bind,if_neg (by omega)]
    rfl
  | succ fuel ih =>
    rw [trimLoop,get_ok hs,ok_bind]
    split
    · next h =>
      obtain ⟨k,rfl⟩ : ∃ m,k=m+1 := ⟨k-1,by omega⟩
      obtain ⟨e,he,h1,h2⟩ := ih (k:=k) (by omega) (by omega) (by omega)
      refine ⟨e,?_,h1,by omega⟩
      have hcast : ((k+1 : ℕ) : ℤ)-1=k := by omega
      rw [hcast,he]
    · exact ⟨k,rfl,by omega,by omega⟩

/-- A character that is no terminator leaves the terminator behind it. -/
theorem Terminated.succ {i : ℕ} (h : Terminated maxConfigLine buf i) (hc : buf i≠nul) :
    Terminated maxConfigLine buf (i+1) := by
  obtain ⟨k,hi,hk,hn⟩ := h
  refine ⟨k,?_,hk,hn⟩
  rcases Nat.eq_or_lt_of_le hi with rfl|hi
  · exact absurd hn hc
  · exact hi

/-- Cutting the comment stays within a buffer that has a terminator, and leaves one. -/
theorem cutComment_ok (h : Terminated maxConfigLine buf 0) :
    ∃ buf',cutComment buf=.ok buf' ∧ Terminated maxConfigLine buf' 0 := by
  obtain ⟨comment,hj,hlt,-⟩ :=
    scanStart_ok (fun c => c= '#' || c= '\n' || c=nul) (by decide) h
  rw [cutComment,hj,ok_bind,get_ok hlt,ok_bind]
  split
  · exact ⟨buf,rfl,h⟩
  · exact ⟨_,put_ok hlt nul,Terminated.put (Nat.zero_le _) hlt⟩

/-- Cutting out the value stays in the buffer: its end may be looked for at the byte before it,
which is at the colon at least. -/
theorem parseValue_ok {key colon : ℕ} (hk : Terminated maxConfigLine buf key)
    (hv : Terminated maxConfigLine buf (colon+1)) :
    ∃ parsed,parseValue buf key colon=.ok parsed := by
  obtain ⟨last,hlast,-,hlt,-⟩ :=
    scanFrom_ok (fun c => isBlank c || c= ':' || c=nul) (by decide) hk
  rw [parseValue,hlast,ok_bind]
  split
  · exact ⟨none,rfl⟩
  · rw [put_ok hlt,ok_bind]
    -- from here on terminators are only added
    have hk₁ := hk.update last
    have hv₁ := hv.update last
    generalize Function.update buf last nul=buf₁ at hk₁ hv₁ ⊢
    obtain ⟨value,hvalue,hcv,-,hv₂,-⟩ := scanFrom_ok (fun c => !isBlank c) (by decide) hv₁
    have hafter : ((colon+1 : ℕ) : ℤ)=(colon : ℤ)+1 := by omega
    rw [hafter] at hvalue
    obtain ⟨n,hn,hnlt⟩ := strlen_ok hv₂
    rw [hvalue,ok_bind,hn,ok_bind]
    obtain ⟨e,he,he1,he2⟩ := @trimLoop_ok buf₁ value maxConfigLine (value+n-1)
      (by omega) (by omega) (by omega) (by omega)
    have hcast : ((value+n-1 : ℕ) : ℤ)=(value : ℤ)+n-1 := by omega
    rw [hcast] at he
    obtain ⟨m,hm⟩ : ∃ m : ℕ,e+1=m := ⟨(e+1).toNat,by omega⟩
    rw [he,ok_bind,hm,put_ok (by omega),ok_bind]
    obtain ⟨ktext,hktext⟩ := textAt_ok (hk₁.update m)
    obtain ⟨vtext,hvtext⟩ := textAt_ok (hv₂.update m)
    rw [hktext,ok_bind,hvtext,ok_bind]
    exact ⟨_,rfl⟩

/-- The parser stays within a buffer that has a terminator. -/
theorem parseLine_ok (h : Terminated maxConfigLine buf 0) : ∃ parsed,parseLine buf=.ok parsed := by
  obtain ⟨buf₁,hb,h₁⟩ := cutComment_ok h
  obtain ⟨key,hkey,-,hkt,-⟩ := scanStart_ok (fun c => !isBlank c) (by decide) h₁
  obtain ⟨colon,hcolon,hlt,hct,-⟩ := scanStart_ok (fun c => c= ':' || c=nul) (by decide) h₁
  rw [parseLine,hb,ok_bind,hkey,ok_bind,hcolon,ok_bind,get_ok hlt,ok_bind]
  split
  · exact ⟨none,rfl⟩
  · next hne => exact parseValue_ok hkt (Terminated.succ hct hne)

/-- `fgets` reads no more than there is room for. -/
theorem length_upToNewline (n : ℕ) (input : List Char) : (upToNewline n input).1.length≤n := by
  induction n generalizing input with
  | zero => simp [upToNewline]
  | succ n ih =>
    cases input with
    | nil => simp [upToNewline]
    | cons c cs =>
      rw [upToNewline]
      split
      · simp
      · simpa using ih cs

/-- `fgets` behind a text leaves the text and what it has read, up to a NUL. -/
theorem fgetsInto_eq {w : List Char} {n : ℕ} (hw : ∀ i (h : i<w.length),buf i=w[i])
    (hc : ∀ c∈w,c≠nul) (hn : w.length+n≤ maxConfigLine) (hpos : w.length< maxConfigLine) :
    match fgets n input with
    | none => fgetsInto buf w.length n input=.ok none
    | some (more,rest) => ∃ buf',fgetsInto buf w.length n input=.ok (some (buf',rest)) ∧
        Holds maxConfigLine buf' (w++more) := by
  by_cases h0 : n=0
  · have hf : fgets n input=none := if_pos h0
    rw [hf,fgetsInto,if_pos (by omega)]
  have h0' : ¬(n : ℤ)≤0 := by omega
  by_cases h1 : n=1
  · have hf : fgets n input=some ([],input) := by rw [fgets,if_neg h0,if_pos h1]
    obtain ⟨buf',hs,hh⟩ := @store_holds maxConfigLine buf w [] hw hc (by simpa using hpos)
    rw [store] at hs
    rw [hf,fgetsInto,if_neg h0',if_pos (by omega),hs]
    exact ⟨buf',rfl,hh⟩
  have h1' : ¬(n : ℤ)=1 := by omega
  by_cases hi : input=[]
  · have hf : fgets n input=none := by rw [fgets,if_neg h0,if_neg h1,if_pos hi]
    rw [hf,fgetsInto,if_neg h0',if_neg h1',if_pos hi]
  · have hf : fgets n input=some (cut (upToNewline (n-1) input).1,(upToNewline (n-1) input).2) := by
      rw [fgets,if_neg h0,if_neg h1,if_neg hi]
    have hlen := length_upToNewline (n-1) input
    have hcast : ((n : ℤ)-1).toNat=n-1 := by omega
    obtain ⟨buf',hs,hh⟩ := @store_holds maxConfigLine buf w (upToNewline (n-1) input).1 hw hc
      (by omega)
    rw [hf,fgetsInto,if_neg h0',if_neg h1',if_neg hi,hcast,hs]
    exact ⟨buf',rfl,hh⟩

/-- Newlines are stripped but for the first character. -/
theorem stripNewlines_append {t : List Char} (h : t≠[]) (c : Char) :
    stripNewlines (t++[c])=if c= '\n' then stripNewlines t else t++[c] := by
  cases t with
  | nil => exact absurd rfl h
  | cons d ds =>
    rw [List.cons_append,stripNewlines,stripNewlines]
    split
    · next hc => rw [List.rdropWhile_concat_pos _ _ _ (by simp [hc])]
    · next hc => rw [List.rdropWhile_concat_neg _ _ _ (by simp [hc])]

/-- A shorter text is held when its terminator is written. -/
theorem Holds.shorten {t : List Char} {c : Char} (h : Holds maxConfigLine buf (t++[c])) :
    Holds maxConfigLine (Function.update buf t.length nul) t := by
  have hf := h.fits
  rw [List.length_append,List.length_singleton] at hf
  refine ⟨by omega,fun i hi => ?_,Function.update_self ..,fun d hd => ?_⟩
  · have hi' : i<(t++[c]).length := by
      rw [List.length_append]
      omega
    rw [Function.update_of_ne (by omega),h.chars i hi',List.getElem_append_left hi]
  · exact h.clean d (List.mem_append_left _ hd)

/-- The loop from the end of the line strips its newlines and stays in the buffer. -/
theorem stripLoop_eq (h : Holds maxConfigLine buf line) {fuel : ℕ} (hf : line.length≤fuel) :
    ∃ buf',stripLoop (fuel+1) ((line.length : ℤ)-1) buf=.ok buf' ∧
      Holds maxConfigLine buf' (stripNewlines line) := by
  induction line using List.reverseRecOn generalizing buf fuel with
  | nil => exact ⟨buf,rfl,h⟩
  | append_singleton t c ih =>
    rw [List.length_append,List.length_singleton] at hf ⊢
    have hlast : ((t.length+1 : ℕ) : ℤ)-1=t.length := by omega
    rw [hlast,stripLoop]
    cases t with
    | nil => exact ⟨buf,rfl,h⟩
    | cons d ds =>
      have hfits := h.fits
      rw [List.length_append,List.length_singleton] at hfits
      have hget : buf (d::ds).length=c := by
        rw [h.chars _ (by simp)]
        simp
      rw [if_pos (by simp),get_ok (by omega),ok_bind,hget,stripNewlines_append (by simp)]
      split
      · rw [put_ok (by omega),ok_bind]
        obtain ⟨fuel,rfl⟩ : ∃ m,fuel=m+1 := ⟨fuel-1,by omega⟩
        exact ih (Holds.shorten h) (by omega)
      · exact ⟨buf,rfl,h⟩

/-- Stripping a line from its end stays in the buffer. -/
theorem stripLine_eq (h : Holds maxConfigLine buf line) :
    ∃ buf',stripLine buf=.ok buf' ∧ Holds maxConfigLine buf' (stripNewlines line) := by
  rw [stripLine,h.strlen_eq,ok_bind]
  exact stripLoop_eq h h.fits.le

/-- On a line without characters, the loop for continuation lines looks at the byte before the
buffer. -/
theorem continueLine_empty (h : Holds maxConfigLine buf []) (fuel : ℕ) :
    continueLine (fuel+1) buf input=.error (.outside (-1)) := by
  rw [continueLine,h.strlen_eq,ok_bind]
  rfl

/-- The loop over continuation lines gives the joined line, or it leaves the buffer or never
ends. -/
theorem continueLine_eq (fuel : ℕ) (h : Holds maxConfigLine buf line) :
    match getContinuation fuel line input with
    | none => continueLine fuel buf input=.error (.outside (-1)) ∨
        continueLine fuel buf input=.error .endless
    | some (line',rest) => ∃ buf',continueLine fuel buf input=.ok (buf',rest) ∧
        Holds maxConfigLine buf' line' := by
  induction fuel generalizing buf line input with
  | zero => exact .inr rfl
  | succ fuel ih =>
    rcases List.eq_nil_or_concat' line with rfl|⟨w,c,rfl⟩
    · exact .inl (continueLine_empty h fuel)
    · have hfits := h.fits
      rw [List.length_append,List.length_singleton] at hfits
      have hlen : ((w++[c]).length : ℤ)-1=w.length := by simp
      have hget : buf w.length=c := by
        rw [h.chars _ (by simp)]
        simp
      rw [getContinuation,continueLine,h.strlen_eq,ok_bind,hlen,get_ok (by omega),ok_bind,hget]
      simp only [List.getLast?_append,List.getLast?_singleton,Option.some_or]
      by_cases hb : c= '\\'
      · simp only [if_pos hb]
        have hw : ∀ i (hi : i<w.length),buf i=w[i] := by
          intro i hi
          rw [h.chars i (by simp; omega),List.getElem_append_left hi]
        have hroom : (maxConfigLine : ℤ)-((w++[c]).length : ℤ)=
            ((maxConfigLine-(w++[c]).length : ℕ) : ℤ) := by
          rw [List.length_append,List.length_singleton]
          omega
        have hread := @fgetsInto_eq buf input w (maxConfigLine-(w++[c]).length) hw
          (fun d hd => h.clean d (List.mem_append_left _ hd)) (by simp; omega) (by omega)
        rw [hroom]
        cases hf : fgets (maxConfigLine-(w++[c]).length) input with
        | none =>
          rw [hf] at hread
          rw [hread]
          exact ⟨buf,rfl,h⟩
        | some p =>
          obtain ⟨more,rest⟩ := p
          rw [hf] at hread
          obtain ⟨buf₁,hr,h₁⟩ := hread
          obtain ⟨buf₂,hs,h₂⟩ := stripLine_eq h₁
          rw [hr,ok_bind]
          dsimp only
          rw [hs,ok_bind,List.dropLast_concat]
          exact ih h₂
      · simp only [if_neg hb]
        exact ⟨buf,rfl,h⟩

/-- The reader on its buffer goes through exactly when the reader on texts does. -/
theorem readBuffer_eq (fuel : ℕ) (buf : Buffer) (input : List Char) (config config' : StringMap) :
    match readLines fuel input config' with
    | none => readBuffer fuel buf input config=.error (.outside (-1)) ∨
        readBuffer fuel buf input config=.error .endless
    | some _ => ∃ result,readBuffer fuel buf input config=.ok result := by
  induction fuel generalizing buf input config config' with
  | zero => exact .inr rfl
  | succ fuel ih =>
    have hread := @fgetsInto_eq buf input [] maxConfigLine (by simp) (by simp) (by simp) (by decide)
    rw [List.length_nil] at hread
    rw [readLines,readBuffer]
    cases hf : fgets maxConfigLine input with
    | none =>
      rw [hf] at hread
      have hr : fgetsInto buf 0 maxConfigLine input=.ok none := hread
      rw [hr]
      exact ⟨config,rfl⟩
    | some p =>
      obtain ⟨line,rest⟩ := p
      rw [hf] at hread
      obtain ⟨buf₁,hr,h₁⟩ := hread
      have hr' : fgetsInto buf 0 maxConfigLine input=.ok (some (buf₁,rest)) := hr
      obtain ⟨buf₂,hs,h₂⟩ := stripLine_eq h₁
      rw [List.nil_append] at h₂
      rw [hr',ok_bind]
      dsimp only
      rw [hs,ok_bind]
      have hcont := @continueLine_eq buf₂ (stripNewlines line) rest (input.length+maxConfigLine) h₂
      cases hg : getContinuation (input.length+maxConfigLine) (stripNewlines line) rest with
      | none =>
        rw [hg] at hcont
        rcases hcont with hc|hc
        · exact .inl (by rw [hc]; rfl)
        · exact .inr (by rw [hc]; rfl)
      | some q =>
        obtain ⟨line',rest'⟩ := q
        rw [hg] at hcont
        obtain ⟨buf₃,hc,h₃⟩ := hcont
        obtain ⟨parsed,hp⟩ := parseLine_ok (h₃.terminates (Nat.zero_le _))
        rw [hc,ok_bind]
        dsimp only
        rw [hp,ok_bind]
        exact ih _ _ _ _

/-- A call of `fgets` while a file is read. -/
structure Store where
  /-- The text before the place where it stores. -/
  kept : List Char
  /-- The size that it is given. -/
  room : ℕ
  /-- What is left of the file. -/
  rest : List Char

/-- The call for the next logical line. -/
def lineStore (rest : List Char) : Store := ⟨[],maxConfigLine,rest⟩

/-- The call after a line was put together: over its final backslash, or for the
next line. An empty line has no last character to look at. -/
def afterLine (line rest : List Char) : Option Store :=
  match line.getLast? with
  | none => none
  | some c =>
    if c= '\\' then some ⟨line.dropLast,maxConfigLine-line.length,rest⟩ else some (lineStore rest)

/-- The call after a call that has read something. -/
def nextStore (s : Store) (_ : Unit) : Option Store :=
  match fgets s.room s.rest with
  | none => none
  | some (more,rest) => afterLine (stripNewlines (s.kept++more)) rest

/-- A call that stores at the start of the buffer does not find a NUL. -/
def Store.Safe (s : Store) : Prop := s.kept=[]→s.rest.head?≠some nul

/-- Every call from this one on stays in the buffer. -/
def Store.Good (s : Store) : Prop := ∀ s',Reaches nextStore s s'→s'.Safe

/-- A call is good if it is safe and the calls after it are good. -/
theorem Store.good_iff (s : Store) :
    s.Good ↔ s.Safe ∧ ∀ s',nextStore s ()=some s'→s'.Good := by
  constructor
  · intro h
    refine ⟨h s .init,fun s' hn s'' hr => ?_⟩
    exact h s'' ((Reaches.single hn).trans hr)
  · rintro ⟨hs,hn⟩ s'' hr
    rcases hr.head with rfl|⟨a,s',ha,hr⟩
    · exact hs
    · exact hn s' ha s'' hr

variable {n : ℕ} {more rest w : List Char}

/-- A line and the rest are what there was. -/
theorem upToNewline_append (n : ℕ) (input : List Char) :
    (upToNewline n input).1++(upToNewline n input).2=input := by
  induction n generalizing input with
  | zero => rfl
  | succ n ih =>
    cases input with
    | nil => rfl
    | cons c cs =>
      rw [upToNewline]
      split
      · rfl
      · simpa using ih cs

/-- Nothing is read at the end of the file only. -/
theorem fgets_none (hn : 0<n) (h : fgets n input=none) : input=[] := by
  unfold fgets at h
  split_ifs at h with h0 h1 h2
  · omega
  · exact h2

/-- What is read is taken off the file and fits. -/
theorem fgets_some (h : fgets n input=some (more,rest)) :
    more.length+rest.length≤ input.length ∧ more.length<n ∧ (2≤n→ rest.length< input.length) := by
  unfold fgets at h
  split_ifs at h with h0 h1 h2
  · cases h
    simp
    omega
  · simp only [Option.some.injEq,Prod.mk.injEq] at h
    obtain ⟨rfl,rfl⟩ := h
    have hlen := congrArg List.length (upToNewline_append (n-1) input)
    have hfit := length_upToNewline (n-1) input
    have hcut := (List.takeWhile_prefix (fun c : Char => decide (c≠ '\x00'))
      (l:=(upToNewline (n-1) input).1)).length_le
    rw [List.length_append] at hlen
    refine ⟨by omega,by omega,fun hn => ?_⟩
    obtain ⟨m,hm⟩ : ∃ m,n-1=m+1 := ⟨n-2,by omega⟩
    have hpos : 0<(upToNewline (n-1) input).1.length := by
      cases input with
      | nil => exact absurd rfl h2
      | cons c cs =>
        rw [hm,upToNewline]
        split <;> simp
    omega

/-- A NUL at the start hides what is read. -/
theorem fgets_head (hn : 2≤n) (h : fgets n input=some (more,rest)) :
    more=[] ↔ input.head?=some nul := by
  unfold fgets at h
  split_ifs at h with h0 h1 h2
  · omega
  · simp only [Option.some.injEq,Prod.mk.injEq] at h
    obtain ⟨rfl,-⟩ := h
    obtain ⟨m,hm⟩ : ∃ m,n-1=m+1 := ⟨n-2,by omega⟩
    cases input with
    | nil => exact absurd rfl h2
    | cons c cs =>
      rw [hm,upToNewline]
      by_cases hc : c=nul
      · rw [hc,if_neg (by decide)]
        simp [nul]
      · split <;> simp [hc]

/-- Nothing becomes shorter than the text before the newlines, and a text does not vanish. -/
theorem stripNewlines_length (t : List Char) : (stripNewlines t).length≤t.length := by
  cases t with
  | nil => rfl
  | cons c cs =>
    have h := (List.rdropWhile_prefix (fun d : Char => decide (d= '\n')) (l:=cs)).length_le
    simpa [stripNewlines] using h

/-- Stripping leaves the first character, so a line that is not empty stays so. -/
theorem stripNewlines_eq_nil (t : List Char) : stripNewlines t=[] ↔ t=[] := by
  cases t <;> simp [stripNewlines]

/-- A line that was put together has a character, and the calls after it are safe. -/
def LineGood (line rest : List Char) : Prop :=
  line≠[] ∧ ∀ s,afterLine line rest=some s→s.Good

/-- At the end of the file nothing more is stored. -/
theorem Store.good_of_none {s : Store} (hpos : 0<s.room) (h : fgets s.room s.rest=none) :
    s.Good := by
  rw [Store.good_iff]
  refine ⟨fun _ => ?_,fun s' hs' => ?_⟩
  · rw [fgets_none hpos h]
    simp
  · simp [nextStore,h] at hs'

/-- A call is as good as the line that it puts together. -/
theorem Store.good_of_some {s : Store} (hroom : s.kept=[]→2≤ s.room)
    (h : fgets s.room s.rest=some (more,rest)) :
    s.Good ↔ LineGood (stripNewlines (s.kept++more)) rest := by
  have hsafe : s.Safe ↔ stripNewlines (s.kept++more)≠[] := by
    rw [Ne,stripNewlines_eq_nil,List.append_eq_nil_iff,Store.Safe]
    constructor
    · rintro hs ⟨hk,hm⟩
      exact hs hk ((fgets_head (hroom hk) h).mp hm)
    · intro hs hk hn
      exact hs ⟨hk,(fgets_head (hroom hk) h).mpr hn⟩
  have hnext : nextStore s ()=afterLine (stripNewlines (s.kept++more)) rest := by
    rw [nextStore,h]
  rw [Store.good_iff,hsafe,hnext,LineGood]

/-- Getting continuation lines only reads on. -/
theorem getContinuation_length {fuel : ℕ} {line' rest' : List Char}
    (h : getContinuation fuel line rest=some (line',rest')) : rest'.length≤ rest.length := by
  induction fuel generalizing line rest with
  | zero => simp [getContinuation] at h
  | succ fuel ih =>
    rw [getContinuation] at h
    split at h
    · simp at h
    · split at h
      · split at h
        · simp only [Option.some.injEq,Prod.mk.injEq] at h
          rw [h.2]
        · next hf =>
          have hsum := (fgets_some hf).1
          have hrest := ih h
          omega
      · simp only [Option.some.injEq,Prod.mk.injEq] at h
        rw [h.2]

/-- The continuation lines are read exactly when their calls are safe, and the file goes on
behind them. -/
theorem getContinuation_good {fuel : ℕ} (hf : rest.length+line.length<fuel)
    (hl : line.length< maxConfigLine) :
    LineGood line rest ↔ ∃ line' rest',getContinuation fuel line rest=some (line',rest') ∧
      (lineStore rest').Good := by
  induction fuel generalizing line rest with
  | zero => omega
  | succ fuel ih =>
    rcases List.eq_nil_or_concat' line with rfl|⟨w,c,rfl⟩
    · simp [LineGood,getContinuation]
    · rw [List.length_append,List.length_singleton] at hf hl
      rw [LineGood,afterLine,getContinuation]
      simp only [List.getLast?_append,List.getLast?_singleton,Option.some_or]
      by_cases hb : c= '\\'
      · simp only [if_pos hb,List.dropLast_concat,List.length_append,List.length_singleton]
        obtain ⟨room,hroom⟩ : ∃ room,room=maxConfigLine-(w.length+1) := ⟨_,rfl⟩
        rw [← hroom]
        have hline : ((w++[c]≠[]) ∧ ∀ s,some (⟨w,room,rest⟩ : Store)=some s→s.Good) ↔
            (⟨w,room,rest⟩ : Store).Good := by simp
        rw [hline]
        cases h : fgets room rest with
        | none =>
          have hgood := Store.good_of_none (s:=⟨w,room,rest⟩) (by dsimp only; omega) h
          have hrest : rest=[] := fgets_none (by omega) h
          have hend : (lineStore rest).Good := by
            refine Store.good_of_none (Nat.zero_lt_succ _) ?_
            rw [lineStore,hrest]
            rfl
          exact iff_of_true hgood ⟨_,_,rfl,hend⟩
        | some p =>
          obtain ⟨more,rest₁⟩ := p
          obtain ⟨hsum,hfit,-⟩ := fgets_some h
          have hstrip := stripNewlines_length (w++more)
          rw [List.length_append] at hstrip
          have htwo : w=[]→2≤ room := by
            rintro rfl
            rw [hroom]
            decide
          have hcall : (⟨w,room,rest⟩ : Store).Good ↔ LineGood (stripNewlines (w++more)) rest₁ :=
            Store.good_of_some htwo h
          rw [hcall]
          exact ih (by omega) (by omega)
      · simp [if_neg hb]

/-- The reader on texts goes through exactly when all calls are safe. -/
theorem readLines_good {fuel : ℕ} {input : List Char} (hf : input.length<fuel)
    (config : StringMap) :
    (readLines fuel input config).isSome ↔ (lineStore input).Good := by
  induction fuel generalizing input config with
  | zero => omega
  | succ fuel ih =>
    rw [readLines]
    cases h : fgets maxConfigLine input with
    | none =>
      have hgood := Store.good_of_none (s:=lineStore input) (Nat.zero_lt_succ _) h
      exact iff_of_true rfl hgood
    | some p =>
      obtain ⟨line,rest⟩ := p
      obtain ⟨hsum,hfit,hless⟩ := fgets_some h
      have hshort := hless (by decide)
      have hstrip := stripNewlines_length line
      have hcall : (lineStore input).Good ↔ LineGood (stripNewlines line) rest :=
        Store.good_of_some (s:=lineStore input) (fun _ => Nat.le_add_left 2 2046) h
      have hline := @getContinuation_good (stripNewlines line) rest (input.length+maxConfigLine)
        (by omega) (by omega)
      rw [hcall,hline]
      dsimp only
      cases hg : getContinuation (input.length+maxConfigLine) (stripNewlines line) rest with
      | none => simp
      | some q =>
        obtain ⟨line',rest'⟩ := q
        have hlen := getContinuation_length hg
        rw [ih (by omega)]
        simp

/-- What is left of a file is its end. -/
theorem fgets_suffix (h : fgets n input=some (more,rest)) : rest<:+input := by
  unfold fgets at h
  split_ifs at h
  · cases h
    exact List.suffix_refl _
  · simp only [Option.some.injEq,Prod.mk.injEq] at h
    obtain ⟨-,rfl⟩ := h
    exact ⟨_,upToNewline_append (n-1) input⟩

/-- The next call reads on where the last one stopped. -/
theorem nextStore_suffix {s s' : Store} {a : Unit} (h : nextStore s a=some s') :
    s'.rest<:+s.rest := by
  rw [nextStore] at h
  split at h
  · simp at h
  · next hf =>
    have hsuf := fgets_suffix hf
    rw [afterLine] at h
    split at h
    · simp at h
    · split at h <;> cases h <;> exact hsuf

/-- No NUL is left in the file. -/
def Store.Clean (s : Store) : Prop := nul∉s.rest

/-- A file without NUL bytes is read safely. -/
theorem good_of_clean {content : List Char} (h : nul∉content) : (lineStore content).Good := by
  intro s hr _ hhead
  have hclean : s.Clean := by
    refine Run.invariant hr h ?_
    intro s a s' hs _ hn
    exact fun hmem => hs ((nextStore_suffix hn).subset hmem)
  exact hclean (List.mem_of_mem_head? hhead)

/-- Every access that `read_config_file` makes to its line buffer is within it, its loops come to
an end and its texts are terminated, exactly when no call of `fgets` that stores at the start of
the buffer (for a line, or over a line of a single backslash) finds a NUL there in the file. -/
theorem config_reader_safe_iff (content : List Char) (buf : Buffer) (config : StringMap) :
    (∃ result,readBuffer (content.length+1) buf content config=.ok result) ↔
      ∀ s,Reaches nextStore (lineStore content) s→s.kept=[]→s.rest.head?≠some nul := by
  have hread := readBuffer_eq (content.length+1) buf content config config
  have hgood := readLines_good (Nat.lt_succ_self content.length) config
  rw [show (∀ s,Reaches nextStore (lineStore content) s→s.kept=[]→s.rest.head?≠some nul) ↔
    (lineStore content).Good from Iff.rfl,← hgood]
  cases h : readLines (content.length+1) content config with
  | none =>
    rw [h] at hread
    rcases hread with hr|hr <;> simp [hr]
  | some result =>
    rw [h] at hread
    exact iff_of_true hread rfl

/-- Of a file with nothing but a NUL, the byte before the buffer is looked at. -/
theorem config_reader_nul :
    readBuffer ([nul].length+1) (fun _ => nul) [nul] .nil=.error (.outside (-1)) := by
  rfl

end IftopColor.ConfigBuffer
