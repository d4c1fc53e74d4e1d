import IftopColor.Screen
import IftopColor.SortedList
import Mathlib.Data.Char
import Mathlib.Data.List.Lex
import Mathlib.Data.Prod.Lex

/-!
# The order of screen lines

`screen_line_compare` says whether one line goes after another, and says yes when
they are equal in everything it looks at. What it looks at is a key: a host name in
the host modes, then rates column by column. The answer is yes exactly when the key
of the first line is not smaller in the order of the mode. One by one, lines are
therefore sorted stably; as the comparison of `qsort`, the same answer contradicts
itself on lines with equal keys.
-/

namespace IftopColor.LineOrder

open Options Screen SortedList StableInsertion

/-- The rates that a bandwidth comparison looks at, in order: in a display of one
direction the columns of that direction, then the sums of both directions. -/
def bandwidthKey (o : OptionsT) (divs : List Division) (line : HostPairLine) : List ℚ :=
  let oneLine :=
    match o.linedisplay with
    | .oneLineSent => divs.map line.sent
    | .oneLineRecv => divs.map line.recv
    | .twoLine => []
    | .oneLineBoth => []
  oneLine++divs.map fun j => line.recv j+line.sent j

/-- Keys of lines: a host name in ascending order, then rates in descending order. -/
abbrev LineKey := List Char×ₗ(List ℚ)ᵒᵈ

/-- The key that a sort mode orders lines by. -/
def sortKey (o : OptionsT) (line : HostPairLine) : LineKey :=
  match o.sort with
  | .div1 => toLex ([],OrderDual.toDual (bandwidthKey o [0,1,2] line))
  | .div2 => toLex ([],OrderDual.toDual (bandwidthKey o [1,2] line))
  | .div3 => toLex ([],OrderDual.toDual (bandwidthKey o [2] line))
  | .src => toLex (line.cachedHostname,OrderDual.toDual (bandwidthKey o [2] line))
  | .dest => toLex (line.cachedHostname,OrderDual.toDual (bandwidthKey o [2] line))

/-- The `int` that `screen_line_compare` returns. -/
def lineCompare (o : OptionsT) (left right : HostPairLine) : ℤ :=
  if screenLineCompare o left right then 1 else 0

variable {o : OptionsT} {aa bb cc : HostPairLine}

/-- Rates are compared column by column. -/
theorem cons_le_cons_iff_rates {x y : ℚ} {xs ys : List ℚ} :
    x::xs≤y::ys ↔ x<y ∨ x=y ∧ xs≤ys := by
  rw [le_iff_lt_or_eq,le_iff_lt_or_eq,List.cons_lt_cons_iff,List.cons_eq_cons]
  tauto

/-- The first column with a difference decides, and what follows decides when there is
none. -/
theorem firstDifference_getD (rate : HostPairLine→Division→ℚ) {d : Bool} {restA restB : List ℚ}
    (hd : d=true ↔ restA≤ restB) (divs : List Division) :
    (firstDifference rate aa bb divs).getD d=true ↔
      divs.map (rate aa)++restA≤divs.map (rate bb)++restB := by
  induction divs with
  | nil => simpa [firstDifference] using hd
  | cons j js ih =>
    rw [firstDifference,List.map_cons,List.map_cons,List.cons_append,List.cons_append,
      cons_le_cons_iff_rates]
    by_cases hne : rate aa j=rate bb j
    · rw [if_neg (by simpa using hne),ih]
      simp [hne]
    · rw [if_pos hne]
      simp [hne]

/-- A line goes after another when its rates are not larger. -/
theorem screenLineBandwidthCompare_iff (divs : List Division) :
    screenLineBandwidthCompare o aa bb divs=true ↔
      bandwidthKey o divs aa≤bandwidthKey o divs bb := by
  have hsum : (firstDifference (fun line j => line.recv j+line.sent j) aa bb divs).getD true=true ↔
      divs.map (fun j => aa.recv j+aa.sent j)≤divs.map fun j => bb.recv j+bb.sent j := by
    have htie : true=true ↔ ([] : List ℚ) ≤ [] := by simp
    rw [firstDifference_getD _ htie,List.append_nil,List.append_nil]
  unfold screenLineBandwidthCompare bandwidthKey
  cases o.linedisplay with
  | oneLineSent =>
    dsimp only
    rw [←firstDifference_getD HostPairLine.sent hsum]
    cases firstDifference HostPairLine.sent aa bb divs <;> rfl
  | oneLineRecv =>
    dsimp only
    rw [←firstDifference_getD HostPairLine.recv hsum]
    cases firstDifference HostPairLine.recv aa bb divs <;> rfl
  | twoLine => simpa using hsum
  | oneLineBoth => simpa using hsum

/-- A line goes after another when its host name is larger, or the same with rates
that are not larger. -/
theorem screenLineHostCompare_iff : screenLineHostCompare o aa bb=true ↔
    bb.cachedHostname<aa.cachedHostname ∨
      bb.cachedHostname=aa.cachedHostname ∧ bandwidthKey o [2] aa≤bandwidthKey o [2] bb := by
  unfold screenLineHostCompare
  by_cases hn : aa.cachedHostname=bb.cachedHostname
  · rw [if_pos hn,screenLineBandwidthCompare_iff]
    simp [hn]
  · rw [if_neg hn]
    simp [Ne.symm hn]

/-- In every mode, a line goes after another exactly when its key is not smaller. -/
theorem screenLineCompare_iff : screenLineCompare o aa bb=true ↔ sortKey o bb≤ sortKey o aa := by
  unfold screenLineCompare sortKey
  cases o.sort with
  | div1 => simp [screenLineBandwidthCompare_iff,Prod.Lex.le_iff]
  | div2 => simp [screenLineBandwidthCompare_iff,Prod.Lex.le_iff]
  | div3 => simp [screenLineBandwidthCompare_iff,Prod.Lex.le_iff]
  | src => simp [screenLineHostCompare_iff,Prod.Lex.le_iff]
  | dest => simp [screenLineHostCompare_iff,Prod.Lex.le_iff]

/-- The wrapper answers 1 when the key of the first line is not smaller and -1 otherwise. -/
theorem wrapper_eq (o : OptionsT) (aa bb : HostPairLine) :
    qsortCompareWrapper (lineCompare o) aa bb=if sortKey o bb≤ sortKey o aa then 1 else -1 := by
  unfold qsortCompareWrapper lineCompare
  by_cases h : screenLineCompare o aa bb=true
  · rw [if_pos (screenLineCompare_iff.mp h)]
    simp [h]
  · rw [if_neg (mt screenLineCompare_iff.mpr h)]
    simp [h]

/-- What the comparison of `qsort` has to fulfil on two lines and a third. -/
structure ValidCompare (cmp : HostPairLine→HostPairLine→ℤ) (aa bb cc : HostPairLine) : Prop where
  /-- The two orders of the lines have opposite answers. -/
  opposite : (cmp aa bb).sign= -(cmp bb aa).sign
  /-- Going after is transitive. -/
  trans_after : cmp aa bb>0→cmp bb cc>0→cmp aa cc>0
  /-- Going before is transitive. -/
  trans_before : cmp aa bb<0→cmp bb cc<0→cmp aa cc<0

/-- The signs of the two answers are opposite exactly when the keys differ. -/
theorem wrapper_opposite_iff (o : OptionsT) (aa bb : HostPairLine) :
    (qsortCompareWrapper (lineCompare o) aa bb).sign=
        -(qsortCompareWrapper (lineCompare o) bb aa).sign ↔ sortKey o aa≠sortKey o bb := by
  rw [wrapper_eq,wrapper_eq]
  rcases lt_trichotomy (sortKey o aa) (sortKey o bb) with h|h|h
  · simp [h.ne,h.le,not_le.mpr h]
  · simp [h]
  · simp [h.ne',h.le,not_le.mpr h]

/-- For every sort mode and every display, the comparison given to `qsort` is valid for
two lines, next to any third, exactly when their keys differ. -/
theorem wrapper_valid_iff (o : OptionsT) (aa bb cc : HostPairLine) :
    ValidCompare (qsortCompareWrapper (lineCompare o)) aa bb cc ↔ sortKey o aa≠sortKey o bb := by
  refine ⟨fun h => (wrapper_opposite_iff o aa bb).mp h.opposite,fun hne => ?_⟩
  have hpos (x y : HostPairLine) :
      qsortCompareWrapper (lineCompare o) x y>0 ↔ sortKey o y≤ sortKey o x := by
    rw [wrapper_eq]
    split <;> simp_all
  have hneg (x y : HostPairLine) :
      qsortCompareWrapper (lineCompare o) x y<0 ↔ sortKey o x<sortKey o y := by
    rw [wrapper_eq]
    split <;> simp_all
  refine ⟨(wrapper_opposite_iff o aa bb).mpr hne,?_,?_⟩
  · simp only [hpos]
    exact fun hab hbc => hbc.trans hab
  · simp only [hneg]
    exact fun hab hbc => hab.trans hbc

/-- Two idle lines are each said to go after the other. -/
theorem idle_lines_not_valid :
    ¬ValidCompare (qsortCompareWrapper (lineCompare optionsSetDefaults)) HostPairLine.zero
      {HostPairLine.zero with pid := 1} HostPairLine.zero := by
  intro h
  exact (wrapper_opposite_iff _ _ _).mp h.opposite rfl

/-- For every sort mode and every display, inserting lines one by one sorts them by the
key of the mode, and lines with equal keys keep their order. -/
theorem insertAll_sorts_stably (o : OptionsT) (lines : List HostPairLine) :
    let sorted := contents (insertAll (lineCompare o) lines)
    sorted.Perm lines ∧ Ordered (sortKey o) sorted ∧
      ∀ k,sorted.filter (fun line => sortKey o line=k)=lines.filter fun line => sortKey o line=k := by
  dsimp only
  rw [insertAll_contents]
  apply placeAll_stable
  refine List.pairwise_of_forall fun bb aa => ?_
  rw [AfterKey,←screenLineCompare_iff,goesAfter,lineCompare]
  cases screenLineCompare o aa bb <;> simp

end IftopColor.LineOrder
