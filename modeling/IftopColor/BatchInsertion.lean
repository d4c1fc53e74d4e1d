import IftopColor.SortedList
import Mathlib.Data.Int.Order.Basic
import Mathlib.Data.List.Pairwise
import Mathlib.Tactic.Linarith

/-!
# Batches and single items

A comparison for the sorted list is positive when its first item has to come
after the second. Single insertion looks at the sign of the result;
`qsort_compare_wrapper` looks at whether it is zero, and turns everything else
into 1. The two agree as long as the comparison is never negative. With a
negative result both orders of two items are answered by 1, and `qsort` is left
without an order to sort by.
-/

namespace IftopColor.BatchInsertion

open StableInsertion SortedList

variable {α β : Type}

/-- The result of a comparison is what an order says about the two items. -/
def Agrees (le : α→α→Prop) (cmp : α→α→ℤ) (a b : α) : Prop :=
  (cmp a b≤0 ↔ le a b) ∧ (0≤ cmp a b ↔ le b a)

/-- A comparison is consistent on an array: its results, in both directions and for
any two of the items, are those of a total preorder. -/
def Consistent (cmp : α→α→ℤ) (items : List α) : Prop :=
  ∃ le : α→α→Prop,(∀ a b,le a b ∨ le b a) ∧ (∀ a b c,le a b→le b c→le a c) ∧
    items.Pairwise fun a b => Agrees le cmp a b ∧ Agrees le cmp b a

/-- What `qsort` promises: it permutes the array, and sorts it when the comparison is
consistent. -/
def Qsorts (qsort : (α→α→ℤ)→List α→List α) : Prop :=
  ∀ cmp items,(qsort cmp items).Perm items ∧
    (Consistent cmp items→(qsort cmp items).Pairwise fun a b => cmp a b≤0)

/-- The contract of a comparison: positive when the first item must come after the
second, in the order of their keys. -/
def Contract [LinearOrder β] (key : α→β) (compare : α→α→ℤ) : Prop :=
  ∀ a b,key a≠key b→(compare a b>0 ↔ key b<key a)

/-- Whatever `qsort` does when it has no order to sort by, a batch makes the same list
as its items one by one. -/
def BatchAgrees (compare : α→α→ℤ) (items : List α) : Prop :=
  ∀ qsort,Qsorts qsort→
    contents (sortedListInsertBatch qsort compare items sortedListInitialise)=
      contents (insertAll compare items)

open Classical in
/-- Sort by a consistent comparison, do something else otherwise. -/
noncomputable def sortOr (other : List α→List α) (cmp : α→α→ℤ) (items : List α) : List α :=
  if h : Consistent cmp items then items.mergeSort fun a b => decide (h.choose a b)
  else other items

open Classical in
/-- Sorting in order of a key where a comparison allows it is a `qsort`. -/
theorem sortOr_qsorts {other : List α→List α} (ho : ∀ items,(other items).Perm items) :
    Qsorts (sortOr other) := by
  intro cmp items
  unfold sortOr
  split
  · rename_i h
    obtain ⟨htotal,htrans,hagree⟩ := h.choose_spec
    have hperm := List.mergeSort_perm items fun a b => decide (h.choose a b)
    refine ⟨hperm,fun _ => ?_⟩
    have hsorted : (items.mergeSort fun a b => decide (h.choose a b)).Pairwise
        fun a b => h.choose a b := by
      have htrans' : ∀ a b c,decide (h.choose a b)=true→decide (h.choose b c)=true→
          decide (h.choose a c)=true := by
        intro a b c hab hbc
        simpa using htrans a b c (by simpa using hab) (by simpa using hbc)
      have htotal' : ∀ a b,(decide (h.choose a b) || decide (h.choose b a))=true :=
        fun a b => by simpa using htotal a b
      exact (List.pairwise_mergeSort htrans' htotal' items).imp fun hab => by simpa using hab
    have hboth : (items.mergeSort fun a b => decide (h.choose a b)).Pairwise
        fun a b => Agrees h.choose cmp a b ∧ Agrees h.choose cmp b a :=
      (hperm.pairwise_iff fun hab => ⟨hab.2,hab.1⟩).mpr hagree
    exact (hsorted.and hboth).imp fun hab => hab.2.1.1.mpr hab.1
  · rename_i h
    exact ⟨ho items,fun hc => absurd hc h⟩

variable [LinearOrder β] {key : α→β} {compare : α→α→ℤ} {items : List α}

/-- One by one, items are sorted by their keys. -/
theorem insertAll_ordered (hc : Contract key compare) (hk : (items.map key).Nodup) :
    (contents (insertAll compare items)).Perm items ∧
      Ordered key (contents (insertAll compare items)) := by
  have hafter : items.Pairwise (AfterKey key (goesAfter compare)) := by
    refine (List.pairwise_map.mp hk).imp fun {b a} hne => ?_
    rw [AfterKey,goesAfter,decide_eq_true_iff,hc a b hne.symm]
    exact ⟨le_of_lt,fun hle => lt_of_le_of_ne hle hne⟩
  obtain ⟨hp,ho,-⟩ := placeAll_stable hafter
  rw [insertAll_contents]
  exact ⟨hp,ho⟩

/-- A list in order of distinct keys is determined by its items. -/
theorem eq_of_ordered {xs ys : List α} (hk : (xs.map key).Nodup) (hp : xs.Perm ys)
    (hx : Ordered key xs) (hy : Ordered key ys) : xs=ys := by
  refine hp.eq_of_pairwise ?_ hx hy
  intro a b ha hb hab hba
  exact List.inj_on_of_nodup_map hk ha (hp.symm.subset hb) (le_antisymm hab hba)

/-- A comparison that is never negative gives the wrapper the order of the keys. -/
theorem wrapper_agrees (hc : Contract key compare) {a b : α} (hne : key a≠key b)
    (h : 0≤ compare a b) : Agrees (fun a b => key a≤key b) (qsortCompareWrapper compare) a b := by
  have hlt := hc a b hne
  unfold Agrees qsortCompareWrapper
  by_cases h0 : compare a b=0
  · have hle : key a≤key b := not_lt.mp fun hba => by have := hlt.mpr hba; omega
    have hab : key a<key b := lt_of_le_of_ne hle hne
    simp [h0,hab.le,hab]
  · have hba : key b<key a := hlt.mp (by omega)
    simp [h0,hba.le,hba]

/-- A negative result makes the wrapper inconsistent. -/
theorem wrapper_not_consistent (hc : Contract key compare) {a b : α} (ha : a∈items) (hb : b∈items)
    (hne : key a≠key b) (h : compare a b<0) : ¬Consistent (qsortCompareWrapper compare) items := by
  rintro ⟨le,htotal,-,hagree⟩
  have hab : key a<key b := by
    refine lt_of_le_of_ne (not_lt.mp fun hba => ?_) hne
    have := (hc a b hne).mpr hba
    omega
  have hba : compare b a>0 := (hc b a hne.symm).mpr hab
  have hw : qsortCompareWrapper compare a b=1 ∧ qsortCompareWrapper compare b a=1 :=
    ⟨if_pos (by omega),if_pos (by omega)⟩
  have hsymm : Std.Symm fun a b : α => Agrees le (qsortCompareWrapper compare) a b ∧
      Agrees le (qsortCompareWrapper compare) b a := ⟨fun x y hxy => ⟨hxy.2,hxy.1⟩⟩
  have hpair := hagree.forall ha hb fun he => hne (by rw [he])
  obtain ⟨⟨h1,-⟩,h2,-⟩ := hpair
  rw [hw.1] at h1
  rw [hw.2] at h2
  rcases htotal a b with hle|hle
  · exact absurd (h1.mpr hle) (by decide)
  · exact absurd (h2.mpr hle) (by decide)

/-- A batch into an empty list leaves its items there as `qsort` has sorted them. -/
theorem batch_contents {qsort : (α→α→ℤ)→List α→List α} (hq : Qsorts qsort) :
    contents (sortedListInsertBatch qsort compare items sortedListInitialise)=
      if items=[] then [] else qsort (qsortCompareWrapper compare) items := by
  obtain ⟨cells,h,hd⟩ := sortedListInsertBatch_represents compare (hq _ items).1
    represents_initialise
  rw [h.contents_eq,hd]
  rfl

/-- Without negative results a batch is sorted by the keys as well. -/
theorem batchAgrees_of_nonneg (hc : Contract key compare) (hk : (items.map key).Nodup)
    (h : ∀ a∈items,∀ b∈items,key a≠key b→0≤ compare a b) : BatchAgrees compare items := by
  intro qsort hq
  have hne : items.Pairwise fun a b => key a≠key b := List.pairwise_map.mp hk
  have hcons : Consistent (qsortCompareWrapper compare) items := by
    refine ⟨fun a b => key a≤key b,fun a b => le_total _ _,fun a b c => le_trans,?_⟩
    refine (List.pairwise_iff_forall_sublist.mpr fun {a b} hab => ?_)
    have ha : a∈items := hab.subset (by simp)
    have hb : b∈items := hab.subset (by simp)
    have hab : key a≠key b := List.pairwise_iff_forall_sublist.mp hne hab
    exact ⟨wrapper_agrees hc hab (h a ha b hb hab),
      wrapper_agrees hc hab.symm (h b hb a ha hab.symm)⟩
  obtain ⟨hperm,hsorted⟩ := hq (qsortCompareWrapper compare) items
  obtain ⟨hp,ho⟩ := insertAll_ordered hc hk
  rw [batch_contents hq]
  split
  · rename_i hnil
    subst hnil
    exact hp.eq_nil.symm
  · have hnodup := (hperm.map key).nodup_iff.mpr hk
    refine eq_of_ordered hnodup (hperm.trans hp.symm) ?_ ho
    have hdist : (qsort (qsortCompareWrapper compare) items).Pairwise fun a b => key a≠key b :=
      (hperm.pairwise_iff fun hab => hab.symm).mpr hne
    refine ((hsorted hcons).and hdist).imp fun {a b} hab => ?_
    -- a result that is not positive was zero before the wrapper
    have hzero : compare a b=0 := by
      by_contra h0
      have hle := hab.1
      rw [qsortCompareWrapper,if_pos h0] at hle
      exact absurd hle (by decide)
    exact not_lt.mp fun hba => by have := (hc a b hab.2).mpr hba; omega

/-- With a negative result `qsort` is free to answer with any permutation. -/
theorem not_batchAgrees_of_neg (hc : Contract key compare) {a b : α} (ha : a∈items) (hb : b∈items)
    (hne : key a≠key b) (hneg : compare a b<0) : ¬BatchAgrees compare items := by
  intro hagrees
  have hincons := wrapper_not_consistent hc ha hb hne hneg
  have hitems : items≠[] := List.ne_nil_of_mem ha
  have hother : ∀ bad : List α,bad.Perm items→bad=contents (insertAll compare items) := by
    classical
    intro bad hbad
    have hperm : ∀ l,(Function.update id items bad l).Perm l := by
      intro l
      by_cases hl : l=items
      · rw [hl,Function.update_self]
        exact hbad
      · rw [Function.update_of_ne hl]
        exact .refl _
    have hq := sortOr_qsorts hperm
    have he := hagrees _ hq
    rwa [batch_contents hq,if_neg hitems,sortOr,dif_neg hincons,Function.update_self] at he
  -- in particular with one that starts with `a` and one that starts with `b`
  have hhead : ∀ c∈items,∃ cs,(c::cs).Perm items := by
    intro c hc
    obtain ⟨xs,ys,he⟩ := List.append_of_mem hc
    refine ⟨xs++ys,?_⟩
    rw [he]
    exact List.perm_middle.symm
  obtain ⟨as,has⟩ := hhead a ha
  obtain ⟨bs,hbs⟩ := hhead b hb
  have hab := (hother _ has).trans (hother _ hbs).symm
  exact hne (congrArg key (List.cons.inj hab).1)

/-- For items with different keys, a batch makes the same list as its items one by
one exactly when the comparison is negative for no two of them. -/
theorem batchAgrees_iff_nonneg (hc : Contract key compare) (hk : (items.map key).Nodup) :
    BatchAgrees compare items ↔ ∀ a∈items,∀ b∈items,key a≠key b→0≤ compare a b := by
  refine ⟨fun hagrees a ha b hb hne => ?_,batchAgrees_of_nonneg hc hk⟩
  exact not_lt.mp fun hneg => not_batchAgrees_of_neg hc ha hb hne hneg hagrees

/-- `int_compare` of the tests: three-way. -/
def intCompare (left right : ℤ) : ℤ := (if left>right then 1 else 0)-(if left< right then 1 else 0)

/-- Comparing integers by their difference satisfies the contract of `qsort`. -/
theorem intCompare_contract : Contract (id : ℤ→ℤ) intCompare := by
  intro a b hne
  dsimp only [id,intCompare] at hne ⊢
  split_ifs <;> omega

/-- Three numbers inserted by a comparison that says no more than whether the first goes
after the second. -/
theorem batchAgrees_iff_nonneg_three :
    Contract (id : ℤ→ℤ) (fun a b => if a>b then 1 else 0) ∧ ([3,1,2].map (id : ℤ→ℤ)).Nodup ∧
      (BatchAgrees (fun a b : ℤ => if a>b then 1 else 0) [3,1,2] ↔
        ∀ a∈([3,1,2] : List ℤ),∀ b∈([3,1,2] : List ℤ),id a≠id b→(0 : ℤ)≤ if a>b then 1 else 0) := by
  have hc : Contract (id : ℤ→ℤ) (fun a b => if a>b then 1 else 0) := by
    intro a b hne
    dsimp only [id] at hne ⊢
    split_ifs <;> omega
  have hk : ([3,1,2].map (id : ℤ→ℤ)).Nodup := by decide
  exact ⟨hc,hk,batchAgrees_iff_nonneg hc hk⟩

/-- By `int_compare`, a merge sort leaves two numbers in the wrong order. -/
theorem three_way_batch_unsorted :
    Contract (id : ℤ→ℤ) intCompare ∧ ([1,2].map (id : ℤ→ℤ)).Nodup ∧
      contents (sortedListInsertBatch mergeQsort intCompare [1,2] sortedListInitialise)=[2,1] ∧
      contents (insertAll intCompare [1,2])=[1,2] ∧ ¬BatchAgrees intCompare [1,2] := by
  have hneg : intCompare 1 2<0 := by decide
  refine ⟨intCompare_contract,by decide,?_,?_,?_⟩
  · have hw : mergeQsort (qsortCompareWrapper intCompare) [1,2]=[2,1] := by
      simp [mergeQsort,List.mergeSort,List.MergeSort.Internal.splitInTwo,qsortCompareWrapper,
        intCompare]
    obtain ⟨cells,h,hd⟩ := sortedListInsertBatch_represents intCompare
      (mergeQsort_perm (qsortCompareWrapper intCompare) [1,2]) represents_initialise
    rw [h.contents_eq,hd,hw]
    rfl
  · rw [insertAll_contents]
    decide
  · exact not_batchAgrees_of_neg intCompare_contract (by simp) (by simp) (by decide) hneg

end IftopColor.BatchInsertion
