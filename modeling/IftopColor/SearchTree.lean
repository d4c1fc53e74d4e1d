import Mathlib.Data.List.Nodup

/-!
# Unbalanced search trees

A binary tree whose nodes hold a key and its data, searched by comparing the
wanted key with the key of each node on the way down. Insertion keeps the data of
a key that is there already; replacement changes the data of a key and nothing
else. Both are described by what a later search finds, and no order of the keys in
the tree is needed for that: the same comparisons lead the same way.
-/

namespace IftopColor.SearchTree

/-- A tree with keys in `κ` and data in `α`. -/
inductive Tree (κ α : Type) where
  | nil
  | node (key : κ) (data : α) (lesser greater : Tree κ α)

variable {κ α : Type} (cmp : κ→κ→Ordering)

/-- Data of a key. -/
def find (k : κ) : Tree κ α→Option α
  | .nil => none
  | .node key data lesser greater =>
    match cmp k key with
    | .eq => some data
    | .lt => find k lesser
    | .gt => find k greater

/-- Add a key with its data; a key that is there keeps its data. -/
def insert (k : κ) (d : α) : Tree κ α→Tree κ α
  | .nil => .node k d .nil .nil
  | .node key data lesser greater =>
    match cmp k key with
    | .eq => .node key data lesser greater
    | .lt => .node key data (insert k d lesser) greater
    | .gt => .node key data lesser (insert k d greater)

/-- Change the data of a key that is there. -/
def replace (k : κ) (d : α) : Tree κ α→Tree κ α
  | .nil => .nil
  | .node key data lesser greater =>
    match cmp k key with
    | .eq => .node key d lesser greater
    | .lt => .node key data (replace k d lesser) greater
    | .gt => .node key data lesser (replace k d greater)

variable {cmp} {k k' key : κ} {d data : α} {lesser greater : Tree κ α}

/-- In an empty tree no key is found. -/
theorem find_nil : find cmp k (.nil : Tree κ α)=none := rfl

/-- A key is looked for on its side of a node. -/
theorem find_node : find cmp k (.node key data lesser greater)=
    match cmp k key with
    | .eq => some data
    | .lt => find cmp k lesser
    | .gt => find cmp k greater := rfl

/-- Inserting into an empty tree makes a node without children. -/
theorem insert_nil : insert cmp k d .nil=.node k d .nil .nil := rfl

/-- A key is added on its side of a node. -/
theorem insert_node : insert cmp k d (.node key data lesser greater)=
    match cmp k key with
    | .eq => .node key data lesser greater
    | .lt => .node key data (insert cmp k d lesser) greater
    | .gt => .node key data lesser (insert cmp k d greater) := rfl

/-- Data are changed on the side of their key. -/
theorem replace_node : replace cmp k d (.node key data lesser greater)=
    match cmp k key with
    | .eq => .node key d lesser greater
    | .lt => .node key data (replace cmp k d lesser) greater
    | .gt => .node key data lesser (replace cmp k d greater) := rfl

/-- An inserted key is found, with the data it had if it was there. -/
theorem find_insert_self (hcmp : ∀ a b,cmp a b=.eq ↔ a=b) (t : Tree κ α) :
    find cmp k (insert cmp k d t)=some ((find cmp k t).getD d) := by
  induction t with
  | nil => simp [insert_nil,find_nil,find_node,(hcmp k k).mpr rfl]
  | node key data lesser greater ihl ihg =>
    cases h : cmp k key with
    | eq => simp [insert_node,find_node,h]
    | lt => simpa [insert_node,find_node,h] using ihl
    | gt => simpa [insert_node,find_node,h] using ihg

/-- After an insertion the other keys are found as before. -/
theorem find_insert_of_ne (hcmp : ∀ a b,cmp a b=.eq ↔ a=b) (hne : k'≠k) (t : Tree κ α) :
    find cmp k' (insert cmp k d t)=find cmp k' t := by
  induction t with
  | nil =>
    have h : cmp k' k≠.eq := fun h => hne ((hcmp k' k).mp h)
    cases h' : cmp k' k <;> simp_all [insert_nil,find_nil,find_node]
  | node key data lesser greater ihl ihg =>
    cases h : cmp k key <;> cases h' : cmp k' key <;> simp [insert_node,find_node,h,h',ihl,ihg]

/-- A replaced key is found with the new data, if it was there. -/
theorem find_replace_self (t : Tree κ α) :
    find cmp k (replace cmp k d t)=(find cmp k t).map fun _ => d := by
  induction t with
  | nil => rfl
  | node key data lesser greater ihl ihg =>
    cases h : cmp k key with
    | eq => simp [replace_node,find_node,h]
    | lt => simpa [replace_node,find_node,h] using ihl
    | gt => simpa [replace_node,find_node,h] using ihg

/-- After a replacement the other keys are found as before. -/
theorem find_replace_of_ne (hcmp : ∀ a b,cmp a b=.eq ↔ a=b) (hne : k'≠k) (t : Tree κ α) :
    find cmp k' (replace cmp k d t)=find cmp k' t := by
  induction t with
  | nil => rfl
  | node key data lesser greater ihl ihg =>
    cases h : cmp k key with
    | eq =>
      have h' : cmp k' key≠.eq := fun h' => hne (((hcmp _ _).mp h').trans ((hcmp _ _).mp h).symm)
      cases h'' : cmp k' key with
      | eq => exact absurd h'' h'
      | lt => simp only [replace_node,find_node,h,h'']
      | gt => simp only [replace_node,find_node,h,h'']
    | lt => cases h' : cmp k' key <;> simp [replace_node,find_node,h,h',ihl]
    | gt => cases h' : cmp k' key <;> simp [replace_node,find_node,h,h',ihg]

/-- Replacing data by itself changes nothing. -/
theorem replace_found {t : Tree κ α} (h : find cmp k t=some d) : replace cmp k d t=t := by
  induction t with
  | nil => rfl
  | node key data lesser greater ihl ihg =>
    cases hk : cmp k key with
    | eq =>
      obtain rfl : data=d := by simpa [find_node,hk] using h
      simp only [replace_node,hk]
    | lt => simp only [replace_node,hk,ihl (by simpa [find_node,hk] using h)]
    | gt => simp only [replace_node,hk,ihg (by simpa [find_node,hk] using h)]

/-- Inserting a key that is there changes nothing. -/
theorem insert_found {t : Tree κ α} (h : (find cmp k t).isSome) : insert cmp k d t=t := by
  induction t with
  | nil => cases h
  | node key data lesser greater ihl ihg =>
    cases hk : cmp k key with
    | eq => simp only [insert_node,hk]
    | lt => simp only [insert_node,hk,ihl (by simpa [find_node,hk] using h)]
    | gt => simp only [insert_node,hk,ihg (by simpa [find_node,hk] using h)]

/-- After some insertions the first value of each key is found, unless the key was there before. -/
theorem find_foldl_insert [BEq κ] [LawfulBEq κ] (hcmp : ∀ a b,cmp a b=.eq ↔ a=b) (k : κ)
    (items : List (κ×α)) (t : Tree κ α) :
    find cmp k (items.foldl (fun t item => insert cmp item.1 item.2 t) t)=
      (find cmp k t).or (items.lookup k) := by
  induction items generalizing t with
  | nil => simp
  | cons item items ih =>
    obtain ⟨key,value⟩ := item
    rw [List.foldl_cons,ih]
    by_cases hk : k=key
    · subst hk
      rw [find_insert_self hcmp,List.lookup_cons_self]
      cases find cmp k t <;> rfl
    · have hbeq : (k==key)=false := by simpa using hk
      rw [find_insert_of_ne hcmp hk,List.lookup_cons,hbeq]

/-- Keys from left to right. -/
def keys : Tree κ α→List κ
  | .nil => []
  | .node key _ lesser greater => keys lesser++key::keys greater

variable (cmp) in
/-- At every node the keys in the lesser subtree are smaller and those in the greater subtree are
larger. -/
def Ordered : Tree κ α→Prop
  | .nil => True
  | .node key _ lesser greater =>
    (∀ k∈keys lesser,cmp k key=.lt) ∧ (∀ k∈keys greater,cmp k key=.gt) ∧
      Ordered lesser ∧ Ordered greater

variable {t : Tree κ α}

/-- An insertion adds its key to those of the tree. -/
theorem mem_keys_insert (hcmp : ∀ a b,cmp a b=.eq ↔ a=b) :
    k'∈keys (insert cmp k d t) ↔ k'=k ∨ k'∈keys t := by
  induction t with
  | nil => simp [insert_nil,keys]
  | node key data lesser greater ihl ihg =>
    cases hk : cmp k key with
    | eq =>
      obtain rfl := (hcmp _ _).mp hk
      simp only [insert_node,hk,keys,List.mem_append,List.mem_cons]
      tauto
    | lt =>
      simp only [insert_node,hk,keys,List.mem_append,List.mem_cons,ihl]
      tauto
    | gt =>
      simp only [insert_node,hk,keys,List.mem_append,List.mem_cons,ihg]
      tauto

/-- An insertion keeps the order of the keys. -/
theorem Ordered.insert (hcmp : ∀ a b,cmp a b=.eq ↔ a=b) (h : Ordered cmp t) :
    Ordered cmp (insert cmp k d t) := by
  induction t with
  | nil => exact ⟨nofun,nofun,trivial,trivial⟩
  | node key data lesser greater ihl ihg =>
    obtain ⟨hl,hg,hol,hog⟩ := h
    cases hk : cmp k key with
    | eq =>
      simp only [insert_node,hk]
      exact ⟨hl,hg,hol,hog⟩
    | lt =>
      simp only [insert_node,hk]
      refine ⟨fun x hx => ?_,hg,ihl hol,hog⟩
      rcases (mem_keys_insert hcmp).mp hx with rfl|hx
      · exact hk
      · exact hl x hx
    | gt =>
      simp only [insert_node,hk]
      refine ⟨hl,fun x hx => ?_,hol,ihg hog⟩
      rcases (mem_keys_insert hcmp).mp hx with rfl|hx
      · exact hk
      · exact hg x hx

/-- A sequence of insertions keeps the order of the keys. -/
theorem Ordered.foldl_insert (hcmp : ∀ a b,cmp a b=.eq ↔ a=b) (items : List (κ×α))
    (h : Ordered cmp t) :
    Ordered cmp (items.foldl (fun t item => SearchTree.insert cmp item.1 item.2 t) t) := by
  induction items generalizing t with
  | nil => exact h
  | cons item items ih => exact ih (h.insert hcmp)

/-- The keys of an ordered tree are distinct. -/
theorem Ordered.nodup (hcmp : ∀ a b,cmp a b=.eq ↔ a=b) (h : Ordered cmp t) : (keys t).Nodup := by
  induction t with
  | nil => exact List.nodup_nil
  | node key data lesser greater ihl ihg =>
    obtain ⟨hl,hg,hol,hog⟩ := h
    have hself : cmp key key=.eq := (hcmp key key).mpr rfl
    refine List.nodup_append.mpr ⟨ihl hol,List.nodup_cons.mpr ⟨fun hm => ?_,ihg hog⟩,?_⟩
    · have := hg key hm
      rw [hself] at this
      cases this
    · rintro a ha b hb rfl
      have hlt := hl a ha
      rcases List.mem_cons.mp hb with rfl|hb
      · rw [hself] at hlt
        cases hlt
      · rw [hg a hb] at hlt
        cases hlt

end IftopColor.SearchTree
