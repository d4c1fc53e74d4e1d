import IftopColor.ChainTable
import Mathlib.Algebra.BigOperators.Group.List.Basic

/-!
# Records reached through a chained table

The table holds record pointers and a memory holds the records. The abstract
content is the list of keys with the records their pointers lead to. Updating
a record through the pointer that a lookup returned, or through the pointer of
a fresh record that was just inserted, is one operation on that list: an
update of the key's record, created from a default when the key is new.
-/

namespace IftopColor.RecordStore

open ChainTable

section Keyed

variable {κ α : Type}

/-- Keys of an association list, in order. -/
abbrev keys (es : List (κ×α)) : List κ := es.map Prod.fst

variable [DecidableEq κ]

/-- Apply `f` to the record of one key. -/
def modify (k : κ) (f : α→α) (es : List (κ×α)) : List (κ×α) :=
  es.map fun e => if e.1=k then (e.1,f e.2) else e

/-- Apply `f` to the record of one key, starting from `z` when it is absent. -/
def upsert (k : κ) (z : α) (f : α→α) (es : List (κ×α)) : List (κ×α) :=
  if k∈keys es then modify k f es else (k,f z)::es

variable {k : κ} {z : α} {f : α→α} {es : List (κ×α)}

/-- Modification keeps every key in its place. -/
theorem keys_modify (k : κ) (f : α→α) (es : List (κ×α)) : keys (modify k f es)=keys es := by
  simp only [keys,modify,List.map_map]
  apply List.map_congr_left
  intro e _
  dsimp only [Function.comp]
  split <;> rfl

/-- After a modification the entries of other keys are as before and those of the key are
modified. -/
theorem mem_modify {e : κ×α} : e∈modify k f es ↔
    (e.1≠k ∧ e∈es) ∨ (e.1=k ∧ ∃ r,(k,r)∈es ∧ e.2=f r) := by
  simp only [modify,List.mem_map]
  constructor
  · rintro ⟨⟨k',r⟩,hm,he⟩
    by_cases hk : k'=k
    · subst hk
      simp only [if_true] at he
      subst he
      exact .inr ⟨rfl,r,hm,rfl⟩
    · simp only [hk,if_false] at he
      subst he
      exact .inl ⟨hk,hm⟩
  · rintro (⟨hk,hm⟩|⟨hk,r,hm,hr⟩)
    · exact ⟨e,hm,by simp [hk]⟩
    · exact ⟨(k,r),hm,by simp [←hk,←hr]⟩

/-- The key is present afterwards, and no other key appears or disappears. -/
theorem mem_keys_upsert {k' : κ} : k'∈keys (upsert k z f es) ↔ k'=k ∨ k'∈keys es := by
  unfold upsert
  split
  · rename_i hk
    rw [keys_modify]
    exact ⟨.inr,by rintro (rfl|h) <;> assumption⟩
  · simp [keys]

/-- Adding or modifying an entry keeps the keys distinct. -/
theorem nodup_keys_upsert (hn : (keys es).Nodup) : (keys (upsert k z f es)).Nodup := by
  unfold upsert
  split
  · rwa [keys_modify]
  · exact List.nodup_cons.mpr ⟨by assumption,hn⟩

/-- The record of the key itself comes from its old record or the default;
all other entries are unchanged. -/
theorem mem_upsert {e : κ×α} : e∈upsert k z f es ↔
    (e.1≠k ∧ e∈es) ∨
      (e.1=k ∧ ((∃ r,(k,r)∈es ∧ e.2=f r) ∨ (k∉keys es ∧ e.2=f z))) := by
  unfold upsert
  split
  · rename_i hk
    simp only [mem_modify,not_true_eq_false,hk,false_and,or_false]
  · rename_i hk
    have hno : ∀ r,(k,r)∉es := fun r hr => hk (List.mem_map_of_mem hr)
    constructor
    · intro h
      rcases List.mem_cons.mp h with rfl|h
      · exact .inr ⟨rfl,.inr ⟨hk,rfl⟩⟩
      · exact .inl ⟨fun he => hno e.2 (he ▸ h),h⟩
    · rintro (⟨-,h⟩|⟨he,⟨r,hr,-⟩|⟨-,hr⟩⟩)
      · exact List.mem_cons_of_mem _ h
      · exact absurd hr (hno r)
      · exact List.mem_cons.mpr (.inl (Prod.ext he hr))

/-- Without the key there is nothing to modify. -/
theorem modify_of_notMem (hk : k∉keys es) (f : α→α) : modify k f es=es := by
  rw [modify]
  refine (List.map_congr_left fun e he => ?_).trans (List.map_id es)
  have hne : e.1≠k := fun hek => hk (hek ▸ List.mem_map_of_mem he)
  rw [if_neg hne]
  rfl

/-- Creating a missing record and then modifying it is one update. -/
theorem modify_upsert : modify k f (upsert k z id es)=upsert k z f es := by
  unfold upsert
  by_cases hk : k∈keys es
  · rw [if_pos hk,if_pos hk,modify,modify,modify,List.map_map]
    apply List.map_congr_left
    intro e _
    by_cases he : e.1=k <;> simp [he]
  · have hkeep := modify_of_notMem hk f
    rw [if_neg hk,if_neg hk,modify,List.map_cons,←modify,hkeep]
    simp

/-- An update seen through a map of the records. -/
theorem map_upsert {β : Type} {g : α→β} {f' : β→β} (h : ∀ r,g (f r)=f' (g r)) :
    (upsert k z f es).map (fun e => (e.1,g e.2))=
      upsert k (g z) f' (es.map fun e => (e.1,g e.2)) := by
  have hkeys : keys (es.map fun e => (e.1,g e.2))=keys es := by
    rw [keys,List.map_map]
    rfl
  unfold upsert
  rw [hkeys]
  split
  · simp only [modify,List.map_map]
    refine List.map_congr_left fun e _ => ?_
    dsimp only [Function.comp]
    split
    · rw [h]
    · rfl
  · rw [List.map_cons,h]

/-- An update does not depend on the order of the entries. -/
theorem upsert_perm {es' : List (κ×α)} (hp : es.Perm es') :
    (upsert k z f es).Perm (upsert k z f es') := by
  have hkeys : k∈keys es ↔ k∈keys es' := (hp.map Prod.fst).mem_iff
  unfold upsert
  by_cases hk : k∈keys es
  · rw [if_pos hk,if_pos (hkeys.mp hk)]
    exact hp.map _
  · rw [if_neg hk,if_neg (mt hkeys.mpr hk)]
    exact hp.cons _

/-- Modifying one record adds to the sum what it adds to the record. -/
theorem sum_modify {M : Type} [AddCommMonoid M] (val : α→M) {d : M} (hn : (keys es).Nodup)
    (hk : k∈keys es) (hf : ∀ r,val (f r)=val r+d) :
    ((modify k f es).map fun e => val e.2).sum=(es.map fun e => val e.2).sum+d := by
  induction es with
  | nil => simp at hk
  | cons e es ih =>
    rw [keys,List.map_cons] at hn hk
    obtain ⟨he,hn⟩ := List.nodup_cons.mp hn
    by_cases hek : e.1=k
    · have hrest := modify_of_notMem (hek ▸ he) f
      rw [modify,List.map_cons,←modify,hrest,if_pos hek]
      simp only [List.map_cons,List.sum_cons,hf]
      exact add_right_comm _ _ _
    · have hrest := ih hn ((List.mem_cons.mp hk).resolve_left (Ne.symm hek))
      rw [modify,List.map_cons,←modify,if_neg hek,List.map_cons,List.sum_cons,hrest,List.map_cons,
        List.sum_cons,add_assoc]

/-- A value indicated at one listed key adds up to itself. -/
theorem sum_indicator {M : Type} [AddCommMonoid M] {ks : List κ} (hn : ks.Nodup) {x : κ}
    (hx : x∈ks) (c : M) : (ks.map fun k => if x=k then c else 0).sum=c := by
  induction ks with
  | nil => simp at hx
  | cons k ks ih =>
    obtain ⟨hk,hn⟩ := List.nodup_cons.mp hn
    rw [List.map_cons,List.sum_cons]
    rcases List.mem_cons.mp hx with rfl|hx
    · have hz : (ks.map fun k => if x=k then c else 0)=ks.map fun _ => 0 := by
        apply List.map_congr_left
        intro k' hk'
        rw [if_neg]
        rintro rfl
        exact hk hk'
      rw [hz,if_pos rfl]
      simp
    · have he : x≠k := fun he => hk (he ▸ hx)
      rw [if_neg he,zero_add,ih hn hx]

/-- Weights of items added up key by key give the sum over all items, when
every item's key is listed exactly once. -/
theorem sum_by_key {β M : Type} [AddCommMonoid M] {ks : List κ} (hn : ks.Nodup) (key : β→κ)
    (w : β→M) (items : List β) (hc : ∀ b∈items,key b∈ks) :
    (ks.map fun k => ((items.filter fun b => key b=k).map w).sum).sum=(items.map w).sum := by
  induction items with
  | nil => simp
  | cons b items ih =>
    have hi := ih fun c hm => hc c (List.mem_cons_of_mem _ hm)
    have hb := sum_indicator hn (hc b (List.mem_cons_self ..)) (w b)
    have hs : (ks.map fun k => (((b::items).filter fun c => key c=k).map w).sum)=
        ks.map fun k => (if key b=k then w b else 0)+((items.filter fun c => key c=k).map w).sum := by
      apply List.map_congr_left
      intro k _
      by_cases he : key b=k <;> simp [he]
    rw [hs,List.sum_map_add,hb,hi,List.map_cons,List.sum_cons]

/-- Every entry holds the sum of the weights of the items under its key, no
key is listed twice, and every item's key is listed. -/
structure Grouped {β M : Type} [AddCommMonoid M] (key : β→κ) (w : β→M) (val : α→M)
    (items : List β) (es : List (κ×α)) : Prop where
  /-- Keys are distinct. -/
  nodup : (keys es).Nodup
  /-- Every item has an entry. -/
  present : ∀ b∈items,key b∈keys es
  /-- Entries hold the sums of their items. -/
  sums : ∀ e∈es,val e.2=((items.filter fun b => key b=e.1).map w).sum

section Grouped

variable {β M : Type} [AddCommMonoid M] {key : β→κ} {w : β→M} {val : α→M} {items : List β}

/-- The order of the entries does not matter. -/
theorem Grouped.perm {es' : List (κ×α)} (h : Grouped key w val items es) (hp : es'.Perm es) :
    Grouped key w val items es' :=
  ⟨(hp.map Prod.fst).nodup_iff.mpr h.nodup,
    fun b hb => (hp.map Prod.fst).symm.subset (h.present b hb),
    fun e he => h.sums e (hp.subset he)⟩

/-- Adding the weight of one more item to its entry, created when missing. -/
theorem Grouped.upsert {b : β} (h : Grouped key w val items es) (hz : val z=0)
    (hf : ∀ r,val (f r)=val r+w b) :
    Grouped key w val (items++[b]) (upsert (key b) z f es) := by
  refine ⟨nodup_keys_upsert h.nodup,?_,?_⟩
  · intro c hc
    rw [mem_keys_upsert]
    rcases List.mem_append.mp hc with hc|hc
    · exact .inr (h.present c hc)
    · exact .inl (by rw [List.mem_singleton.mp hc])
  · intro e he
    rw [List.filter_append,List.map_append,List.sum_append]
    rcases mem_upsert.mp he with ⟨hk,hm⟩|⟨hk,⟨r,hr,hv⟩|⟨habs,hv⟩⟩
    · simp [h.sums e hm,Ne.symm hk]
    · have hs := h.sums _ hr
      simp [hv,hf,hs,hk]
    · -- a new entry: no earlier item can have had its key
      have hnil : (items.filter fun b => key b=e.1)=[] := by
        rw [List.filter_eq_nil_iff]
        intro c hc hce
        simp only [decide_eq_true_eq] at hce
        exact habs (hk ▸ hce ▸ h.present c hc)
      rw [hnil,hv,hf,hz]
      simp [hk]

/-- Items may be replaced by what their keys and weights are computed from. -/
theorem Grouped.map {γ : Type} {g : γ→β} {cs : List γ}
    (h : Grouped (fun c => key (g c)) (fun c => w (g c)) val cs es) :
    Grouped key w val (cs.map g) es := by
  refine ⟨h.nodup,?_,?_⟩
  · intro b hb
    obtain ⟨c,hc,rfl⟩ := List.mem_map.mp hb
    exact h.present c hc
  · intro e he
    rw [h.sums e he,List.filter_map,List.map_map]
    rfl

/-- The entries together hold the weights of all items. -/
theorem Grouped.sum (h : Grouped key w val items es) :
    (es.map fun e => val e.2).sum=(items.map w).sum := by
  have hs := sum_by_key h.nodup key w items h.present
  rw [keys,List.map_map] at hs
  rw [←hs]
  exact congrArg List.sum (List.map_congr_left fun e he => h.sums e he)

end Grouped

end Keyed

section Store

variable {κ α : Type} {S : HashSpec κ} {t : Table S ℕ}

/-- Keys with the records their pointers lead to. -/
def entries (t : Table S ℕ) (mem : ℕ→α) : List (κ×α) :=
  t.nodes.map fun n => (n.key,mem n.record)

/-- Nodes, record pointers and keys of a table are pairwise different. -/
structure Linked (t : Table S ℕ) : Prop where
  /-- No node is linked twice. -/
  addrs : t.Addressed
  /-- No two nodes share a record. -/
  records : (t.nodes.map Node.record).Nodup
  /-- No key is stored twice. -/
  keys : (t.nodes.map Node.key).Nodup

/-- The keys of the content are the keys of the nodes. -/
theorem keys_entries (t : Table S ℕ) (mem : ℕ→α) :
    keys (entries t mem)=t.nodes.map Node.key := by
  simp [keys,entries,Function.comp_def]

/-- An empty table leads to no records. -/
theorem linked_empty : Linked (Table.empty : Table S ℕ) := by
  constructor <;> simp [Table.Addressed]

/-- Removing nodes keeps a table linked. -/
theorem Linked.of_sublist {t' : Table S ℕ} (h : Linked t) (hs : t'.nodes.Sublist t.nodes) :
    Linked t' :=
  ⟨h.addrs.sublist (hs.map _),h.records.sublist (hs.map _),h.keys.sublist (hs.map _)⟩

/-- A lookup fails exactly on absent keys. -/
theorem find_none_iff (hl : ∀ a b,S.compare a b=true ↔ a=b) {k : κ} :
    t.find k=none ↔ k∉t.nodes.map Node.key := by
  rw [find_eq,List.find?_eq_none]
  simp only [hl,List.mem_map,not_exists,not_and]

/-- A lookup returns a node of the table with that key. -/
theorem find_some (hl : ∀ a b,S.compare a b=true ↔ a=b) {k : κ} {n : Node κ ℕ}
    (h : t.find k=some n) : n∈t.nodes ∧ n.key=k := by
  rw [find_eq] at h
  exact ⟨List.mem_of_find?_eq_some h,(hl _ _).mp (by simpa using List.find?_some h)⟩

/-- Pushing fresh pointers under a new key keeps the table linked. -/
theorem linked_push (h : Linked t) {addr record : ℕ} {key : κ}
    (ha : addr∉t.nodes.map Node.addr) (hr : record∉t.nodes.map Node.record)
    (hk : key∉t.nodes.map Node.key) : Linked (t.push addr key record) := by
  have hp := nodes_push t addr key record
  refine ⟨?_,?_,?_⟩
  · exact ((hp.map Node.addr).nodup_iff).mpr (List.nodup_cons.mpr ⟨ha,h.addrs⟩)
  · exact ((hp.map Node.record).nodup_iff).mpr (List.nodup_cons.mpr ⟨hr,h.records⟩)
  · exact ((hp.map Node.key).nodup_iff).mpr (List.nodup_cons.mpr ⟨hk,h.keys⟩)

/-- Writing to memory the table does not point to changes no entry. -/
theorem entries_update_of_notMem (mem : ℕ→α) {p : ℕ} (hp : p∉t.nodes.map Node.record) (v : α) :
    entries t (Function.update mem p v)=entries t mem := by
  apply List.map_congr_left
  intro n hn
  rw [Function.update_of_ne]
  rintro rfl
  exact hp (List.mem_map_of_mem hn)

/-- Apply `f` to the records of a list of nodes, one after the other. -/
def forEach (f : α→α) (ns : List (Node κ ℕ)) (mem : ℕ→α) : ℕ→α :=
  ns.foldl (fun mem n => Function.update mem n.record (f (mem n.record))) mem

/-- Records of nodes that are pairwise different are each changed once. -/
theorem forEach_apply (f : α→α) {ns : List (Node κ ℕ)} (hn : (ns.map Node.record).Nodup)
    (mem : ℕ→α) (p : ℕ) :
    forEach f ns mem p=if p∈ns.map Node.record then f (mem p) else mem p := by
  induction ns generalizing mem with
  | nil => simp [forEach]
  | cons n ns ih =>
    rw [List.map_cons,List.nodup_cons] at hn
    rw [forEach,List.foldl_cons,←forEach,ih hn.2,List.map_cons]
    by_cases hp : p=n.record
    · subst hp
      simp [hn.1]
    · simp [hp]

/-- Changing the record of every node changes every entry. -/
theorem entries_forEach (h : Linked t) (f : α→α) (mem : ℕ→α) :
    entries t (forEach f t.nodes mem)=(entries t mem).map fun e => (e.1,f e.2) := by
  simp only [entries,List.map_map]
  apply List.map_congr_left
  intro n hn
  rw [forEach_apply f h.records,if_pos (List.mem_map_of_mem hn)]
  rfl

variable [DecidableEq κ]

/-- Writing through the pointer of a listed node modifies that key's entry. -/
theorem entries_update (h : Linked t) {n : Node κ ℕ} (hn : n∈t.nodes) (mem : ℕ→α) (f : α→α) :
    entries t (Function.update mem n.record (f (mem n.record)))=
      modify n.key f (entries t mem) := by
  simp only [entries,modify,List.map_map]
  apply List.map_congr_left
  intro m hm
  dsimp only [Function.comp]
  by_cases he : m.key=n.key
  · obtain rfl := List.inj_on_of_nodup_map h.keys hm hn he
    simp
  · have hr : m.record≠n.record := fun hr => he
      (congrArg Node.key (List.inj_on_of_nodup_map h.records hm hn hr))
    simp [he,Function.update_of_ne hr]

/-- Writing through a found pointer updates the key's record in place. -/
theorem entries_found (hl : ∀ a b,S.compare a b=true ↔ a=b) (h : Linked t) {k : κ}
    {n : Node κ ℕ} (hf : t.find k=some n) (mem : ℕ→α) (z : α) (f : α→α) :
    entries t (Function.update mem n.record (f (mem n.record)))=upsert k z f (entries t mem) := by
  obtain ⟨hn,rfl⟩ := find_some hl hf
  rw [entries_update h hn,upsert,if_pos]
  rw [keys_entries]
  exact List.mem_map_of_mem hn

/-- Inserting a fresh record and writing through its pointer creates the
key's record from the default. -/
theorem entries_inserted (hl : ∀ a b,S.compare a b=true ↔ a=b) {k : κ} {addr record : ℕ}
    (hf : t.find k=none) (hr : record∉t.nodes.map Node.record) (mem : ℕ→α) (z : α) (f : α→α) :
    (entries (t.push addr k record) (Function.update mem record (f z))).Perm
      (upsert k z f (entries t mem)) := by
  rw [upsert,if_neg (by rw [keys_entries]; exact (find_none_iff hl).mp hf)]
  have hp := (nodes_push t addr k record).map
    fun n => (n.key,Function.update mem record (f z) n.record)
  rw [List.map_cons] at hp
  dsimp only at hp
  rw [Function.update_self] at hp
  have he := entries_update_of_notMem mem hr (f z)
  rw [entries] at he
  rw [he] at hp
  exact hp

end Store

end IftopColor.RecordStore
