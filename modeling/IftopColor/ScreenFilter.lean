import Mathlib.Data.List.Chain
import Mathlib.Data.List.Induction

/-!
# The screen filter

`screen_filter_set` replaces the filter: it frees the pattern and the compiled
program in force and then compiles the new pattern. A pattern that does not
compile is reported and discarded, but by then the old filter is gone. Patterns,
compiled programs and texts are those of the C library's regular expressions,
which are parameters here.
-/

namespace IftopColor.ScreenFilter

variable {Pattern Regex Text : Type}

/-- The variables of `screenfilter.c`. -/
structure Filter (Pattern Regex : Type) where
  /-- `options.screenfilter`. -/
  screenfilter : Option Pattern
  /-- `preg`, unless it was freed or `regcomp` failed on it. -/
  preg : Option Regex

/-- No filter, as at the start. -/
def Filter.empty : Filter Pattern Regex := ⟨none,none⟩

/-- What `screen_filter_set` does first: the filter in force is freed. -/
def Filter.freed (s : Filter Pattern Regex) : Filter Pattern Regex :=
  match s.screenfilter with
  | none => s
  | some _ => ⟨none,none⟩

variable (regcomp : Pattern→Option Regex) (regexec : Regex→Text→Bool)

/-- `screen_filter_set`: its result and the filter afterwards. -/
def screenFilterSet (pattern : Pattern) (s : Filter Pattern Regex) : Bool×Filter Pattern Regex :=
  let s := s.freed
  match regcomp pattern with
  | some preg => (true,⟨some pattern,some preg⟩)
  | none => (false,{s with preg := none})

/-- `screen_filter_match`. A filter in force has its program. -/
def screenFilterMatch (text : Text) (s : Filter Pattern Regex) : Bool :=
  match s.screenfilter with
  | none => true
  | some _ => s.preg.any fun preg => regexec preg text

/-- The filter after some calls. -/
def filterRun (patterns : List Pattern) : Filter Pattern Regex :=
  patterns.foldl (fun s pattern => (screenFilterSet regcomp pattern s).2) .empty

/-- The pattern compiles. -/
def Accepts (pattern : Pattern) : Prop := (regcomp pattern).isSome

instance (pattern : Pattern) : Decidable (Accepts regcomp pattern) :=
  inferInstanceAs (Decidable (_=true))

/-- The last pattern that was set with success. -/
def lastAccepted (patterns : List Pattern) : Option Pattern :=
  (patterns.filter fun pattern => decide (Accepts regcomp pattern)).getLast?

/-- A text passes a pattern. -/
def Matches (pattern : Pattern) (text : Text) : Prop :=
  ∃ preg,regcomp pattern=some preg ∧ regexec preg text=true

/-- At every point of a sequence of calls, the filter is that of the last pattern that
was set with success, and a call that fails changes nothing. -/
structure Atomic (patterns : List Pattern) : Prop where
  /-- What the filter lets through. -/
  matches_iff : ∀ ps,ps<+:patterns→∀ text,
    screenFilterMatch regexec text (filterRun regcomp ps)=true ↔
      lastAccepted regcomp ps=none ∨
        ∃ pattern,lastAccepted regcomp ps=some pattern ∧ Matches regcomp regexec pattern text
  /-- The option after a call that fails. -/
  kept : ∀ ps pattern,ps++[pattern]<+:patterns→
    (screenFilterSet regcomp pattern (filterRun regcomp ps)).1=false→
      (filterRun regcomp (ps++[pattern])).screenfilter=(filterRun regcomp ps).screenfilter
  /-- Matches after a call that fails. -/
  matches_kept : ∀ ps pattern,ps++[pattern]<+:patterns→
    (screenFilterSet regcomp pattern (filterRun regcomp ps)).1=false→∀ text,
      screenFilterMatch regexec text (filterRun regcomp (ps++[pattern]))=
        screenFilterMatch regexec text (filterRun regcomp ps)

variable {regcomp} {regexec} {ps patterns : List Pattern} {pattern : Pattern}

/-- A run with one call more is the call after the run. -/
theorem filterRun_append (ps : List Pattern) (pattern : Pattern) :
    filterRun regcomp (ps++[pattern])=
      (screenFilterSet regcomp pattern (filterRun regcomp ps)).2 := by
  simp [filterRun]

/-- A call succeeds when its pattern compiles. -/
theorem set_result (s : Filter Pattern Regex) :
    (screenFilterSet regcomp pattern s).1=decide (Accepts regcomp pattern) := by
  cases hp : regcomp pattern with
  | none => simp [screenFilterSet,Accepts,hp]
  | some preg => simp [screenFilterSet,Accepts,hp]

/-- A call that succeeds installs its pattern. -/
theorem set_accepted (h : Accepts regcomp pattern) (s : Filter Pattern Regex) :
    (screenFilterSet regcomp pattern s).2=⟨some pattern,regcomp pattern⟩ := by
  obtain ⟨preg,hp⟩ := Option.isSome_iff_exists.mp h
  simp only [screenFilterSet,hp]

/-- A call that fails leaves no filter. -/
theorem set_rejected (h : ¬Accepts regcomp pattern) (s : Filter Pattern Regex) :
    (screenFilterSet regcomp pattern s).2.screenfilter=none := by
  have hn : regcomp pattern=none := Option.not_isSome_iff_eq_none.mp h
  simp only [screenFilterSet,hn,Filter.freed]
  cases hs : s.screenfilter with
  | none => exact hs
  | some _ => rfl

/-- The last pattern that was accepted, after one more call. -/
theorem lastAccepted_append (ps : List Pattern) (pattern : Pattern) :
    lastAccepted regcomp (ps++[pattern])=
      if Accepts regcomp pattern then some pattern else lastAccepted regcomp ps := by
  unfold lastAccepted
  rw [List.filter_append]
  split
  · next h => simp [h]
  · next h => simp [h]

/-- Patterns that fail come before patterns that succeed. -/
def RejectedFirst (regcomp : Pattern→Option Regex) (patterns : List Pattern) : Prop :=
  patterns.Pairwise fun earlier later => Accepts regcomp earlier→Accepts regcomp later

/-- A pattern that fails at the end of such a sequence comes after no filter. -/
theorem RejectedFirst.lastAccepted_eq (h : RejectedFirst regcomp (ps++[pattern]))
    (hr : ¬Accepts regcomp pattern) : lastAccepted regcomp ps=none := by
  have hp := (List.pairwise_append.mp h).2.2
  have hnil : (ps.filter fun p => decide (Accepts regcomp p))=[] := by
    refine List.filter_eq_nil_iff.mpr fun p hm => ?_
    have hnot : ¬Accepts regcomp p := fun ha => hr (hp p hm pattern (List.mem_singleton_self _) ha)
    simpa using hnot
  rw [lastAccepted,hnil]
  rfl

/-- In a sequence with its rejected patterns first, the filter is the last accepted pattern. -/
theorem RejectedFirst.filterRun_eq (h : RejectedFirst regcomp ps) :
    (filterRun regcomp ps).screenfilter=lastAccepted regcomp ps ∧
      ∀ p∈lastAccepted regcomp ps,Accepts regcomp p ∧ (filterRun regcomp ps).preg=regcomp p := by
  induction ps using List.reverseRecOn with
  | nil => exact ⟨rfl,by simp [lastAccepted]⟩
  | append_singleton ps pattern ih =>
    rw [filterRun_append,lastAccepted_append]
    by_cases ha : Accepts regcomp pattern
    · rw [set_accepted ha,if_pos ha]
      refine ⟨rfl,fun p hp => ?_⟩
      cases hp
      exact ⟨ha,rfl⟩
    · rw [if_neg ha,h.lastAccepted_eq ha,set_rejected ha]
      simp

/-- A sequence whose rejected patterns come first is atomic. -/
theorem RejectedFirst.atomic (h : RejectedFirst regcomp patterns) :
    Atomic regcomp regexec patterns := by
  have hpre {ps : List Pattern} (hp : ps<+:patterns) : RejectedFirst regcomp ps :=
    h.sublist hp.sublist
  have hkept (ps : List Pattern) (pattern : Pattern) (hp : ps++[pattern]<+:patterns)
      (hr : (screenFilterSet regcomp pattern (filterRun regcomp ps)).1=false) :
      (filterRun regcomp ps).screenfilter=none ∧
        (filterRun regcomp (ps++[pattern])).screenfilter=none := by
    have hf := hpre hp
    have hps : RejectedFirst regcomp ps := hf.sublist (List.sublist_append_left ..)
    rw [set_result,decide_eq_false_iff_not] at hr
    rw [hps.filterRun_eq.1,hf.lastAccepted_eq hr,filterRun_append,set_rejected hr]
    exact ⟨rfl,rfl⟩
  refine ⟨fun ps hp text => ?_,fun ps pattern hp hr => ?_,fun ps pattern hp hr text => ?_⟩
  · obtain ⟨hs,hpreg⟩ := (hpre hp).filterRun_eq
    unfold screenFilterMatch
    rw [hs]
    cases hl : lastAccepted regcomp ps with
    | none => simp
    | some pattern =>
      have hcomp := (hpreg pattern hl).2
      simp [hcomp,Matches,Option.any_eq_true]
  · obtain ⟨hold,hnew⟩ := hkept ps pattern hp hr
    rw [hold,hnew]
  · obtain ⟨hold,hnew⟩ := hkept ps pattern hp hr
    simp only [screenFilterMatch,hold,hnew]

/-- For every sequence of calls from no filter, a rejected pattern changes nothing and
the last accepted one is in force at every point, if and only if no pattern is
rejected after another one was accepted. -/
theorem screen_filter_atomic_iff (regcomp : Pattern→Option Regex) (regexec : Regex→Text→Bool)
    (patterns : List Pattern) :
    Atomic regcomp regexec patterns ↔ RejectedFirst regcomp patterns := by
  constructor
  · intro h
    have htrans : Trans (fun earlier later => Accepts regcomp earlier→Accepts regcomp later)
        (fun earlier later => Accepts regcomp earlier→Accepts regcomp later)
        (fun earlier later => Accepts regcomp earlier→Accepts regcomp later) :=
      ⟨fun h₁ h₂ ha => h₂ (h₁ ha)⟩
    rw [RejectedFirst,←List.isChain_iff_pairwise,List.isChain_iff_forall_rel_of_append_cons_cons]
    intro earlier later before after hp ha
    by_contra hr
    -- the call for the later pattern fails while the earlier one is in force
    have hsub : (before++[earlier])++[later]<+:patterns := ⟨after,by simp [hp]⟩
    have hfail :
        (screenFilterSet regcomp later (filterRun regcomp (before++[earlier]))).1=false := by
      rw [set_result]
      exact decide_eq_false hr
    have hkept := h.kept _ _ hsub hfail
    rw [filterRun_append,set_rejected hr,filterRun_append,set_accepted ha] at hkept
    cases hkept
  · exact RejectedFirst.atomic

/-- Patterns of letters, which compile unless they open a bracket. -/
def plainRegcomp (pattern : List Char) : Option (List Char) :=
  if '['∈pattern then none else some pattern

/-- Patterns of letters match where they are found. -/
def plainRegexec (preg : List Char) : List Char→Bool
  | [] => preg.isEmpty
  | c::cs => preg.isPrefixOf (c::cs) || plainRegexec preg cs

/-- Setting a filter and then one that does not compile: everything passes again. -/
theorem screen_filter_lost :
    let run := filterRun plainRegcomp ["ssh".toList,"[".toList]
    (screenFilterSet plainRegcomp "[".toList (filterRun plainRegcomp ["ssh".toList])).1=false ∧
      (filterRun plainRegcomp ["ssh".toList]).screenfilter=some "ssh".toList ∧
      run.screenfilter=none ∧
      screenFilterMatch plainRegexec "http".toList run=true ∧
      ¬Atomic plainRegcomp plainRegexec ["ssh".toList,"[".toList] := by
  intro run
  have hfail : (screenFilterSet plainRegcomp "[".toList
      (filterRun plainRegcomp ["ssh".toList])).1=false := by decide
  have hbefore : (filterRun plainRegcomp ["ssh".toList]).screenfilter=some "ssh".toList := by decide
  have hafter : run.screenfilter=none := by decide
  refine ⟨hfail,hbefore,hafter,by decide,fun h => ?_⟩
  have hkept := h.kept ["ssh".toList] "[".toList (List.prefix_refl _) hfail
  rw [hbefore] at hkept
  exact absurd (hafter.symm.trans hkept) (by simp)

end IftopColor.ScreenFilter
