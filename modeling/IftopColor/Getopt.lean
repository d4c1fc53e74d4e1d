import Mathlib.Algebra.Ring.Nat
import Mathlib.Data.List.Basic

/-!
# Options on a command line

`getopt` takes the options off a list of words one by one: a word that begins with a hyphen holds
one or more options, the argument of an option is the rest of its word or else the next word, and
the options end at two hyphens or at the first word that is something else. The ways in which a
list of options can be written are described on their own; they are exactly what is read back.
-/

namespace IftopColor.Getopt

/-- A word of the command line. -/
abbrev Word := List Char

/-- An option that is read, with its argument. -/
abbrev Opt := Char×Option Word

/-- What a call finds. -/
inductive Result where
  /-- An option, with its argument if it takes one. -/
  | option (o : Opt)
  /-- A character that is no option. -/
  | unknown (c : Char)
  /-- An option that lacks its argument. -/
  | missing (c : Char)
  deriving DecidableEq

/-- Where the next call goes on. -/
structure Scan where
  /-- What is left of the word that has been begun. -/
  nextchar : List Char
  /-- The words behind it. -/
  words : List Word
  deriving DecidableEq

/-- What follows a character in the list of options: whether it takes an argument. -/
def argumentOf (c : Char) : List Char→Option Bool
  | [] => none
  | o::optstring => if o=c then some (optstring.head?=some ':') else argumentOf c optstring

/-- Whether a character is an option, and takes an argument. -/
def kind (optstring : List Char) (c : Char) : Option Bool :=
  if c= ':' ∨ c= ';' then none else argumentOf c optstring

variable (optstring : List Char)

/-- The characters of a list of options, with what follows them. -/
def entries : List Char→List (Char×Bool)
  | [] => []
  | o::optstring => (o,optstring.head?=some ':')::entries optstring

/-- One character of a word. -/
def takeOption (c : Char) (nextchar : List Char) (words : List Word) : Result×Scan :=
  match kind optstring c with
  | none => (.unknown c,⟨nextchar,words⟩)
  | some false => (.option (c,none),⟨nextchar,words⟩)
  | some true =>
    match nextchar,words with
    | d::arg,words => (.option (c,some (d::arg)),⟨[],words⟩)
    | [],arg::words => (.option (c,some arg),⟨[],words⟩)
    | [],[] => (.missing c,⟨[],[]⟩)

/-- A call of `getopt`. -/
inductive Step where
  /-- There are no more options; these words are left. -/
  | done (words : List Word)
  /-- An option, or what is wrong. -/
  | found (r : Result) (s : Scan)

/-- What a call does with a result. -/
def Step.of (r : Result×Scan) : Step := .found r.1 r.2

/-- `getopt`, which stops at the first word that is no option. -/
def getopt (s : Scan) : Step :=
  match s with
  | ⟨c::nextchar,words⟩ => .of (takeOption optstring c nextchar words)
  | ⟨[],[]⟩ => .done []
  | ⟨[],word::words⟩ =>
    match word with
    | '-'::c::nextchar =>
      if c::nextchar=['-'] then .done words else .of (takeOption optstring c nextchar words)
    | _ => .done (word::words)

/-- The character that a call returns: a missing argument is told apart only if the list of options
begins with a colon. -/
def Result.code : Result→Char
  | .option o => o.1
  | .unknown _ => '?'
  | .missing _ => if optstring.head?=some ':' then ':' else '?'

/-- `optarg`. -/
def Result.optarg : Result→Word
  | .option o => o.2.getD []
  | _ => []

/-- `optopt`, if it is set. -/
def Result.optopt : Result→Char
  | .option o => o.1
  | .unknown c => c
  | .missing c => c

/-- What calls up to the end find, and the words that are left. -/
inductive Scans : Scan→List Result→List Word→Prop
  | done {s : Scan} {words : List Word} (h : getopt optstring s=.done words) : Scans s [] words
  | found {s t : Scan} {r : Result} {rs : List Result} {words : List Word}
    (h : getopt optstring s=.found r t) (hs : Scans t rs words) : Scans s (r::rs) words

/-- How options can be written. -/
inductive Written : List Opt→Scan→Prop
  /-- There are none. -/
  | nil : Written [] ⟨[],[]⟩
  /-- Two hyphens end them. -/
  | stop : Written [] ⟨[],[['-','-']]⟩
  /-- A word begins. -/
  | word {opts : List Opt} {c : Char} {nextchar : List Char} {words : List Word}
    (hc : c::nextchar≠['-']) (h : Written opts ⟨c::nextchar,words⟩) :
    Written opts ⟨[],('-'::c::nextchar)::words⟩
  /-- An option without argument; more may follow in its word. -/
  | flag {opts : List Opt} {c : Char} {s : Scan} (hc : kind optstring c=some false)
    (h : Written opts s) : Written ((c,none)::opts) ⟨c::s.nextchar,s.words⟩
  /-- The argument is the rest of the word. -/
  | attached {opts : List Opt} {c d : Char} {arg : List Char} {words : List Word}
    (hc : kind optstring c=some true) (h : Written opts ⟨[],words⟩) :
    Written ((c,some (d::arg))::opts) ⟨c::d::arg,words⟩
  /-- The argument is the next word. -/
  | separate {opts : List Opt} {c : Char} {arg : Word} {words : List Word}
    (hc : kind optstring c=some true) (h : Written opts ⟨[],words⟩) :
    Written ((c,some arg)::opts) ⟨[c],arg::words⟩

/-- How options can be written before one that lacks its argument. -/
inductive Lacking (c : Char) : List Opt→Scan→Prop
  /-- The last character takes an argument, and there is none. -/
  | missing (hc : kind optstring c=some true) : Lacking c [] ⟨[c],[]⟩
  /-- A word begins. -/
  | word {opts : List Opt} {d : Char} {nextchar : List Char} {words : List Word}
    (hd : d::nextchar≠['-']) (h : Lacking c opts ⟨d::nextchar,words⟩) :
    Lacking c opts ⟨[],('-'::d::nextchar)::words⟩
  /-- An option without argument; more may follow in its word. -/
  | flag {opts : List Opt} {d : Char} {s : Scan} (hd : kind optstring d=some false)
    (h : Lacking c opts s) : Lacking c ((d,none)::opts) ⟨d::s.nextchar,s.words⟩
  /-- The argument is the rest of the word. -/
  | attached {opts : List Opt} {d e : Char} {arg : List Char} {words : List Word}
    (hd : kind optstring d=some true) (h : Lacking c opts ⟨[],words⟩) :
    Lacking c ((d,some (e::arg))::opts) ⟨d::e::arg,words⟩
  /-- The argument is the next word. -/
  | separate {opts : List Opt} {d : Char} {arg : Word} {words : List Word}
    (hd : kind optstring d=some true) (h : Lacking c opts ⟨[],words⟩) :
    Lacking c ((d,some arg)::opts) ⟨[d],arg::words⟩

variable {optstring} {s s' : Scan} {r : Result} {rs rs' : List Result} {words words' : List Word}
  {opts opts' : List Opt} {c : Char}

/-- A letter of a known kind stands in the option string and is not a colon. -/
theorem kind_mem {b : Bool} (h : kind optstring c=some b) : (c,b)∈entries optstring ∧ c≠ ':' := by
  unfold kind at h
  split at h
  · cases h
  · rename_i hc
    refine ⟨?_,fun heq => hc (.inl heq)⟩
    induction optstring with
    | nil => cases h
    | cons o optstring ih =>
      rw [argumentOf] at h
      split at h
      · rename_i heq
        rw [entries,← heq,← Option.some.inj h]
        exact List.mem_cons_self
      · exact List.mem_cons_of_mem _ (ih h)

/-- How much there is to read. -/
def Scan.size (s : Scan) : ℕ := s.nextchar.length+(s.words.map fun word => word.length+1).sum

/-- Taking an option uses up a character, so less is left to scan. -/
theorem takeOption_size (optstring : List Char) (c : Char) (nextchar : List Char)
    (words : List Word) :
    (takeOption optstring c nextchar words).2.size≤Scan.size ⟨nextchar,words⟩ := by
  unfold takeOption
  split
  · exact Nat.le_refl _
  · exact Nat.le_refl _
  · split
    · simp [Scan.size]
    · simp [Scan.size]
    · exact Nat.le_refl _

/-- A call that finds something has used up a character. -/
theorem getopt_size (h : getopt optstring s=.found r s') : s'.size<s.size := by
  obtain ⟨nextchar,words⟩ := s
  cases nextchar with
  | cons c nextchar =>
    have hs : (takeOption optstring c nextchar words).2=s' := by
      injection h
    have hle := takeOption_size optstring c nextchar words
    rw [hs] at hle
    have hsize : Scan.size ⟨c::nextchar,words⟩=Scan.size ⟨nextchar,words⟩+1 := by
      simp [Scan.size]
      omega
    omega
  | nil =>
    cases words with
    | nil => cases h
    | cons word words =>
      simp only [getopt] at h
      split at h
      · rename_i c nextchar
        split at h
        · cases h
        · have hs : (takeOption optstring c nextchar words).2=s' := by
            injection h
          have hle := takeOption_size optstring c nextchar words
          rw [hs] at hle
          have hsize : Scan.size ⟨[],('-'::c::nextchar)::words⟩=Scan.size ⟨nextchar,words⟩+3 := by
            simp [Scan.size]
            omega
          omega
      · cases h

/-- Every command line is scanned to its end, since each call leaves less of it. -/
theorem exists_scans (optstring : List Char) (s : Scan) : ∃ rs words,Scans optstring s rs words := by
  induction hn : s.size using Nat.strongRecOn generalizing s with
  | ind n ih =>
    cases h : getopt optstring s with
    | done words => exact ⟨[],words,.done h⟩
    | found r s' =>
      have hlt := getopt_size h
      obtain ⟨rs,words,hs⟩ := ih s'.size (by omega) s' rfl
      exact ⟨r::rs,words,.found h hs⟩

/-- There are no more results than characters. -/
theorem Scans.length_le (h : Scans optstring s rs words) : rs.length≤ s.size := by
  induction h with
  | done _ => exact Nat.zero_le _
  | found h _ ih =>
    have hlt := getopt_size h
    rw [List.length_cons]
    omega

/-- A word of options is scanned like the characters behind its dash. -/
theorem getopt_word {nextchar : List Char} (hc : c::nextchar≠['-']) :
    getopt optstring ⟨[],('-'::c::nextchar)::words⟩=
      getopt optstring ⟨c::nextchar,words⟩ := by
  simp only [getopt]
  rw [if_neg hc]

/-- States from which `getopt` returns the same are scanned alike. -/
theorem Scans.congr (h : Scans optstring s rs words)
    (hs : getopt optstring s'=getopt optstring s) : Scans optstring s' rs words := by
  cases h with
  | done h => exact .done (hs.trans h)
  | found h hr => exact .found (hs.trans h) hr

/-- Options that are written are read. -/
theorem Written.scans (h : Written optstring opts s) :
    Scans optstring s (opts.map Result.option) [] := by
  induction h with
  | nil => exact .done rfl
  | stop => exact .done rfl
  | word hc _ ih => exact ih.congr (getopt_word hc)
  | @flag opts c s hc _ ih =>
    refine .found (t := s) ?_ ih
    simp only [getopt,takeOption,hc,Step.of]
  | @attached opts c d arg words hc _ ih =>
    refine .found (t := ⟨[],words⟩) ?_ ih
    simp only [getopt,takeOption,hc,Step.of]
  | @separate opts c arg words hc _ ih =>
    refine .found (t := ⟨[],words⟩) ?_ ih
    simp only [getopt,takeOption,hc,Step.of]

/-- An option that is found was written there. -/
theorem Written.of_takeOption {nextchar : List Char} {o : Opt}
    (h : takeOption optstring c nextchar words=(.option o,s')) (hw : Written optstring opts s') :
    Written optstring (o::opts) ⟨c::nextchar,words⟩ := by
  unfold takeOption at h
  split at h
  · cases (Prod.mk.inj h).1
  · rename_i hc
    obtain ⟨ho,hs⟩ := Prod.mk.inj h
    rw [← Result.option.inj ho]
    rw [← hs] at hw
    exact .flag (s := ⟨nextchar,words⟩) hc hw
  · rename_i hc
    split at h
    · obtain ⟨ho,hs⟩ := Prod.mk.inj h
      rw [← Result.option.inj ho]
      rw [← hs] at hw
      exact .attached hc hw
    · obtain ⟨ho,hs⟩ := Prod.mk.inj h
      rw [← Result.option.inj ho]
      rw [← hs] at hw
      exact .separate hc hw
    · cases (Prod.mk.inj h).1

/-- What a call finds, it finds in the word that has been begun or in the next one. -/
theorem getopt_found (h : getopt optstring s=.found r s') :
    (∃ c nextchar,s=⟨c::nextchar,s.words⟩ ∧ takeOption optstring c nextchar s.words=(r,s')) ∨
      ∃ c nextchar words,s=⟨[],('-'::c::nextchar)::words⟩ ∧ c::nextchar≠['-'] ∧
        takeOption optstring c nextchar words=(r,s') := by
  have hof {c : Char} {nextchar : List Char} {words : List Word}
      (h : Step.of (takeOption optstring c nextchar words)=.found r s') :
      takeOption optstring c nextchar words=(r,s') := by
    obtain ⟨hr,hs⟩ := Step.found.inj h
    exact Prod.ext hr hs
  obtain ⟨nextchar,words⟩ := s
  cases nextchar with
  | cons c nextchar => exact .inl ⟨c,nextchar,rfl,hof h⟩
  | nil =>
    cases words with
    | nil => cases h
    | cons word words =>
      simp only [getopt] at h
      split at h
      · rename_i c nextchar
        split at h
        · cases h
        · rename_i hc
          exact .inr ⟨c,nextchar,words,rfl,hc,hof h⟩
      · cases h

/-- An option that is found is in the list, with an argument if it takes one. -/
theorem takeOption_kind {nextchar : List Char} {o : Opt}
    (h : takeOption optstring c nextchar words=(.option o,s')) :
    kind optstring o.1=some o.2.isSome := by
  unfold takeOption at h
  split at h
  · cases (Prod.mk.inj h).1
  · rename_i hc
    rw [← Result.option.inj (Prod.mk.inj h).1]
    exact hc
  · rename_i hc
    split at h
    · rw [← Result.option.inj (Prod.mk.inj h).1]
      exact hc
    · rw [← Result.option.inj (Prod.mk.inj h).1]
      exact hc
    · cases (Prod.mk.inj h).1

/-- The options that are found are in the list. -/
theorem Scans.kind (h : Scans optstring s rs words) :
    ∀ o,.option o∈rs → Getopt.kind optstring o.1=some o.2.isSome := by
  induction h with
  | done _ => exact fun _ ho => absurd ho List.not_mem_nil
  | found h _ ih =>
    intro o ho
    rcases List.mem_cons.mp ho with hr|ho
    · rw [← hr] at h
      rcases getopt_found h with ⟨c,nextchar,-,ht⟩|⟨c,nextchar,words,-,-,ht⟩
      · exact takeOption_kind ht
      · exact takeOption_kind ht
    · exact ih o ho

/-- The scan ends without words at the end of the line or behind a last `--`. -/
theorem getopt_done (h : getopt optstring s=.done []) : s=⟨[],[]⟩ ∨ s=⟨[],[['-','-']]⟩ := by
  obtain ⟨nextchar,words⟩ := s
  cases nextchar with
  | cons c nextchar => cases h
  | nil =>
    cases words with
    | nil => exact .inl rfl
    | cons word words =>
      simp only [getopt] at h
      split at h
      · split at h
        · rename_i hc
          rw [hc,Step.done.inj h]
          exact .inr rfl
        · cases h
      · cases Step.done.inj h

/-- Options that are read without a rest were written. -/
theorem Scans.written (h : Scans optstring s rs words) (hr : rs=opts.map Result.option)
    (hw : words=[]) : Written optstring opts s := by
  induction h generalizing opts with
  | done h =>
    have hnil : opts=[] := List.map_eq_nil_iff.mp hr.symm
    rw [hw] at h
    rw [hnil]
    rcases getopt_done h with hs|hs
    · rw [hs]
      exact .nil
    · rw [hs]
      exact .stop
  | @found s s' r rs words h _ ih =>
    obtain ⟨o,opts',hopts,ho,hrs⟩ := List.map_eq_cons_iff.mp hr.symm
    have hrest := ih hrs.symm hw
    rw [hopts]
    rw [← ho] at h
    rcases getopt_found h with ⟨c,nextchar,hs,ht⟩|⟨c,nextchar,words,hs,hc,ht⟩
    · rw [hs]
      exact .of_takeOption ht hrest
    · rw [hs]
      exact .word hc (.of_takeOption ht hrest)

/-- Exactly the options that were written are read. -/
theorem scans_iff : Scans optstring s (opts.map Result.option) [] ↔ Written optstring opts s :=
  ⟨fun h => h.written rfl rfl,Written.scans⟩

/-- Options are read up to the one that lacks its argument. -/
theorem Lacking.scans (h : Lacking optstring c opts s) :
    Scans optstring s (opts.map Result.option++[.missing c]) [] := by
  induction h with
  | missing hc =>
    refine .found (t := ⟨[],[]⟩) ?_ (.done rfl)
    simp only [getopt,takeOption,hc,Step.of]
  | word hd _ ih => exact ih.congr (getopt_word hd)
  | @flag opts d s hd _ ih =>
    refine .found (t := s) ?_ ih
    simp only [getopt,takeOption,hd,Step.of]
  | @attached opts d e arg words hd _ ih =>
    refine .found (t := ⟨[],words⟩) ?_ ih
    simp only [getopt,takeOption,hd,Step.of]
  | @separate opts d arg words hd _ ih =>
    refine .found (t := ⟨[],words⟩) ?_ ih
    simp only [getopt,takeOption,hd,Step.of]

end IftopColor.Getopt
