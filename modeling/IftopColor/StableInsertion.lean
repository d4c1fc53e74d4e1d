import Mathlib.Data.List.Perm.Basic
import Mathlib.Data.List.TakeWhile
import Mathlib.Order.Defs.LinearOrder
import Mathlib.Tactic.Linarith

/-!
# Insertion behind items that come first

An item is placed behind the leading items that it has to come after. When the
question is answered by a key, and an item comes after all items whose key is
not larger, placing items one by one sorts them by key and keeps the order of
items with equal keys.
-/

namespace IftopColor.StableInsertion

variable {α β : Type} {after : α→α→Bool} {a : α} {as items : List α}

/-- Place an item behind the leading items that it comes after. -/
def place (after : α→α→Bool) (a : α) (items : List α) : List α :=
  items.takeWhile (after a)++a::items.dropWhile (after a)

/-- Place items one after the other. -/
def placeAll (after : α→α→Bool) (as items : List α) : List α :=
  as.foldl (fun items a => place after a items) items

/-- Placing adds one item and keeps all the others. -/
theorem place_perm (after : α→α→Bool) (a : α) (items : List α) :
    (place after a items).Perm (a::items) := by
  unfold place
  refine List.perm_middle.trans (List.Perm.cons a ?_)
  rw [List.takeWhile_append_dropWhile]

/-- Placing many items adds all of them. -/
theorem placeAll_perm (after : α→α→Bool) (as items : List α) :
    (placeAll after as items).Perm (items++as) := by
  induction as generalizing items with
  | nil => simp [placeAll]
  | cons a as ih =>
    have hp := (place_perm after a items).append_right as
    exact (ih (place after a items)).trans (hp.trans List.perm_middle.symm)

section Keyed

variable [LinearOrder β] {key : α→β}

/-- Items in order of their keys. -/
abbrev Ordered (key : α→β) (items : List α) : Prop := items.Pairwise fun a b => key a≤key b

/-- The items that an item comes after are the ones whose key is not larger. -/
abbrev AfterKey (key : α→β) (after : α→α→Bool) (b a : α) : Prop := after a b=true ↔ key b≤key a

/-- Where an item is placed in a list in order: no larger keys before it, larger
keys behind it. -/
theorem place_split (ho : Ordered key items) (h : ∀ b∈items,AfterKey key after b a) :
    (∀ b∈items.takeWhile (after a),key b≤key a) ∧ ∀ b∈items.dropWhile (after a),key a<key b := by
  constructor
  · intro b hb
    exact (h b (List.takeWhile_subset _ hb)).mp (List.mem_takeWhile_imp hb)
  · intro b hb
    have hsub := List.dropWhile_sublist (l:=items) (after a)
    have hod : Ordered key (items.dropWhile (after a)) := ho.sublist hsub
    have hnot := List.head?_dropWhile_not (after a) items
    cases hd : items.dropWhile (after a) with
    | nil =>
      rw [hd] at hb
      cases hb
    | cons c cs =>
      rw [hd] at hb hod hnot
      have hc : key a<key c := by
        have hmem : c∈items := hsub.subset (by rw [hd]; exact List.mem_cons_self ..)
        have hfalse : ¬after a c=true := by simpa using hnot
        exact not_le.mp fun hle => hfalse ((h c hmem).mpr hle)
      rcases List.mem_cons.mp hb with rfl|hb
      · exact hc
      · exact hc.trans_le (List.rel_of_pairwise_cons hod hb)

/-- Placing an item keeps the order if the test agrees with the keys. -/
theorem place_ordered (ho : Ordered key items) (h : ∀ b∈items,AfterKey key after b a) :
    Ordered key (place after a items) := by
  obtain ⟨hle,hlt⟩ := place_split ho h
  have hparts : Ordered key (items.takeWhile (after a)++items.dropWhile (after a)) := by
    rwa [List.takeWhile_append_dropWhile]
  obtain ⟨h1,h2,h3⟩ := List.pairwise_append.mp hparts
  refine List.pairwise_append.mpr ⟨h1,List.pairwise_cons.mpr ⟨fun b hb => (hlt b hb).le,h2⟩,?_⟩
  intro b hb c hc
  rcases List.mem_cons.mp hc with rfl|hc
  · exact hle b hb
  · exact h3 b hb c hc

variable [DecidableEq β]

/-- Among items of one key, the placed item is the last. -/
theorem place_filter (ho : Ordered key items) (h : ∀ b∈items,AfterKey key after b a) (k : β) :
    (place after a items).filter (fun b => key b=k)=
      items.filter (fun b => key b=k)++[a].filter (fun b => key b=k) := by
  have hlt := (place_split ho h).2
  have hparts : items.filter (fun b => key b=k)=
      (items.takeWhile (after a)).filter (fun b => key b=k)++
        (items.dropWhile (after a)).filter (fun b => key b=k) := by
    rw [←List.filter_append,List.takeWhile_append_dropWhile]
  rw [hparts,place,List.filter_append,List.append_assoc]
  congr 1
  by_cases hk : key a=k
  · have hnone : (items.dropWhile (after a)).filter (fun b => key b=k)=[] := by
      rw [List.filter_eq_nil_iff]
      intro b hb
      have hne := (hlt b hb).ne'
      simpa [←hk] using hne
    rw [List.filter_cons_of_pos (by simpa using hk),hnone]
    simp [hk]
  · rw [List.filter_cons_of_neg (by simpa using hk)]
    simp [hk]

/-- Placing items one by one keeps the order, and items with equal keys stay in
the order in which they were placed. -/
theorem placeAll_ordered (ho : Ordered key items) (h : ∀ b∈items,∀ a∈as,AfterKey key after b a)
    (has : as.Pairwise (AfterKey key after)) :
    Ordered key (placeAll after as items) ∧ ∀ k,(placeAll after as items).filter (fun b => key b=k)=
      (items++as).filter fun b => key b=k := by
  induction as generalizing items with
  | nil => exact ⟨ho,fun k => by simp [placeAll]⟩
  | cons a as ih =>
    obtain ⟨hhead,htail⟩ := List.pairwise_cons.mp has
    have ha : ∀ b∈items,AfterKey key after b a := fun b hb => h b hb a (List.mem_cons_self ..)
    have hnext : ∀ b∈place after a items,∀ c∈as,AfterKey key after b c := by
      intro b hb c hc
      rcases List.mem_cons.mp ((place_perm after a items).subset hb) with rfl|hb
      · exact hhead c hc
      · exact h b hb c (List.mem_cons_of_mem _ hc)
    obtain ⟨hs,hf⟩ := ih (place_ordered ho ha) hnext htail
    refine ⟨hs,fun k => ?_⟩
    rw [placeAll,List.foldl_cons,←placeAll,hf,List.filter_append,place_filter ho ha,
      List.append_assoc,←List.filter_append,←List.filter_append]
    rfl

/-- Placing items into an empty list is a stable sort. -/
theorem placeAll_stable (h : as.Pairwise (AfterKey key after)) :
    (placeAll after as []).Perm as ∧ Ordered key (placeAll after as []) ∧
      ∀ k,(placeAll after as []).filter (fun b => key b=k)=as.filter fun b => key b=k := by
  have hnil : Ordered key ([] : List α) := List.Pairwise.nil
  obtain ⟨ho,hf⟩ := placeAll_ordered hnil (by simp) h
  exact ⟨placeAll_perm after as [],ho,hf⟩

end Keyed

end IftopColor.StableInsertion
