import IftopColor.ConfigFile

/-!
# The string map

`stringmap.c` as an unbalanced tree whose first node has no key until the first
insertion. The descents of insertion and search are loops of their own; both are
those of a search tree. After any insertions the tree is ordered by `strcmp`, and each key
has the value of its first insertion.
-/

namespace IftopColor.Stringmap

open SearchTree ConfigFile

variable {α : Type}

/-- A subtree; its nodes have keys. -/
abbrev Subtree (α : Type) := Tree (List Char) α

/-- `struct _stringmap` at the root, where the key may be NULL. -/
structure Map (α : Type) where
  /-- Member `key`. -/
  key : Option (List Char)
  /-- Member `data`. -/
  data : α
  /-- Member `lesser`. -/
  lesser : Subtree α
  /-- Member `greater`. -/
  greater : Subtree α
  /-- Without a key there are no subtrees. -/
  bare : key=none→lesser= .nil ∧ greater= .nil

/-- `stringmap_new`, which leaves zeroed memory. -/
def stringmapNew (zero : α) : Map α := ⟨none,zero,.nil,.nil,fun _ => ⟨rfl,rfl⟩⟩

/-- A node with a new key. -/
def newNode (key : List Char) (data : α) : Subtree α := .node key data .nil .nil

/-- The test for a NULL pointer. -/
def isNull : Subtree α→Bool
  | .nil => true
  | .node .. => false

/-- The loop of `stringmap_insert` from a node on: the existing value, if there is one, and the node
afterwards. It is not called without a node. -/
def insertLoop (key : List Char) (data : α) : Subtree α→Option α×Subtree α
  | .nil => (none,.nil)
  | .node k d lesser greater =>
    match strcmp key k with
    | .eq => (some d,.node k d lesser greater)
    | .lt =>
      if isNull lesser then (none,.node k d (newNode key data) greater)
      else
        let (existing,current) := insertLoop key data lesser
        (existing,.node k d current greater)
    | .gt =>
      if isNull greater then (none,.node k d lesser (newNode key data))
      else
        let (existing,current) := insertLoop key data greater
        (existing,.node k d lesser current)

/-- `stringmap_insert`, with the value that the returned pointer leads to. -/
def stringmapInsert (map : Map α) (key : List Char) (data : α) : Option α×Map α :=
  match map.key with
  | none => (none,⟨some key,data,map.lesser,map.greater,nofun⟩)
  | some k =>
    let (existing,current) := insertLoop key data (.node k map.data map.lesser map.greater)
    match current with
    | .nil => (existing,map)
    | .node k d lesser greater => (existing,⟨some k,d,lesser,greater,nofun⟩)

/-- The loop of `stringmap_find` from a node on. -/
def findLoop (key : List Char) : Subtree α→Option (Subtree α)
  | .nil => none
  | .node k d lesser greater =>
    match strcmp key k with
    | .eq => some (.node k d lesser greater)
    | .lt => if isNull lesser then none else findLoop key lesser
    | .gt => if isNull greater then none else findLoop key greater

/-- `stringmap_find`, with the node it returns. -/
def stringmapFind (map : Map α) (key : List Char) : Option (Subtree α) :=
  match map.key with
  | none => none
  | some k => findLoop key (.node k map.data map.lesser map.greater)

/-- The whole tree. -/
def Map.tree (map : Map α) : Subtree α :=
  match map.key with
  | none => .nil
  | some k => .node k map.data map.lesser map.greater

variable {key : List Char} {data d : α} {t : Subtree α} {map : Map α}

/-- A pointer is NULL exactly for the empty tree. -/
theorem isNull_iff : isNull t=true ↔ t= .nil := by
  cases t <;> simp [isNull]

/-- The insertion loop inserts into the search tree, and finds what was there. -/
theorem insertLoop_eq (key : List Char) (data : α) (ht : t≠ .nil) :
    insertLoop key data t=(find strcmp key t,SearchTree.insert strcmp key data t) := by
  induction t with
  | nil => exact absurd rfl ht
  | node k d lesser greater ihl ihg =>
    rw [insertLoop,find,SearchTree.insert]
    cases hc : strcmp key k with
    | eq => rfl
    | lt =>
      by_cases hn : isNull lesser=true
      · obtain rfl := isNull_iff.mp hn
        rfl
      · rw [if_neg hn,ihl (mt isNull_iff.mpr hn)]
    | gt =>
      by_cases hn : isNull greater=true
      · obtain rfl := isNull_iff.mp hn
        rfl
      · rw [if_neg hn,ihg (mt isNull_iff.mpr hn)]

/-- The search loop returns the node of the key, if the search tree has it. -/
theorem findLoop_cases (key : List Char) (t : Subtree α) :
    (find strcmp key t=none ∧ findLoop key t=none) ∨
      ∃ d l g,find strcmp key t=some d ∧ findLoop key t=some (.node key d l g) := by
  induction t with
  | nil => exact .inl ⟨rfl,rfl⟩
  | node k d lesser greater ihl ihg =>
    rw [findLoop,find]
    cases hc : strcmp key k with
    | eq =>
      obtain rfl := (strcmp_eq_iff _ _).mp hc
      exact .inr ⟨d,lesser,greater,rfl,rfl⟩
    | lt =>
      by_cases hn : isNull lesser=true
      · obtain rfl := isNull_iff.mp hn
        exact .inl ⟨rfl,rfl⟩
      · simpa only [if_neg hn] using ihl
    | gt =>
      by_cases hn : isNull greater=true
      · obtain rfl := isNull_iff.mp hn
        exact .inl ⟨rfl,rfl⟩
      · simpa only [if_neg hn] using ihg

/-- An insertion returns the existing value and inserts into the tree. -/
theorem stringmapInsert_tree (map : Map α) (key : List Char) (data : α) :
    (stringmapInsert map key data).1=find strcmp key map.tree ∧
      (stringmapInsert map key data).2.tree=SearchTree.insert strcmp key data map.tree := by
  obtain ⟨root,d,lesser,greater,hbare⟩ := map
  cases root with
  | none =>
    obtain ⟨rfl,rfl⟩ := hbare rfl
    exact ⟨rfl,rfl⟩
  | some k =>
    have hl := insertLoop_eq key data (t:=.node k d lesser greater) nofun
    simp only [stringmapInsert,Map.tree,hl]
    cases hi : SearchTree.insert strcmp key data (.node k d lesser greater) with
    | nil =>
      rw [SearchTree.insert] at hi
      split at hi <;> cases hi
    | node k' d' l' g' => exact ⟨rfl,rfl⟩

/-- A search returns the node of the key, if the tree has it. -/
theorem stringmapFind_cases (map : Map α) (key : List Char) :
    (find strcmp key map.tree=none ∧ stringmapFind map key=none) ∨
      ∃ d l g,find strcmp key map.tree=some d ∧ stringmapFind map key=some (.node key d l g) := by
  obtain ⟨root,d,lesser,greater,hbare⟩ := map
  cases root with
  | none => exact .inl ⟨rfl,rfl⟩
  | some k => exact findLoop_cases key (.node k d lesser greater)

/-- Two maps with one tree and one key are the same, if there is a key. -/
theorem map_ext {map map' : Map α} (ht : map'.tree=map.tree) (hk : map.key≠none) : map'=map := by
  obtain ⟨root,d,lesser,greater,hbare⟩ := map
  obtain ⟨root',d',lesser',greater',hbare'⟩ := map'
  cases root with
  | none => exact absurd rfl hk
  | some k =>
    cases root' with
    | none => cases ht
    | some k' =>
      cases ht
      rfl

/-- The map after insertions into a new one, the earliest first. -/
def inserted (zero : α) (items : List (List Char×α)) : Map α :=
  items.foldl (fun map item => (stringmapInsert map item.1 item.2).2) (stringmapNew zero)

/-- The tree of the map comes from inserting the items one after the other. -/
theorem inserted_tree (zero : α) (items : List (List Char×α)) :
    (inserted zero items).tree=
      items.foldl (fun t item => SearchTree.insert strcmp item.1 item.2 t) .nil := by
  have hfold : ∀ map : Map α,
      (items.foldl (fun map item => (stringmapInsert map item.1 item.2).2) map).tree=
        items.foldl (fun t item => SearchTree.insert strcmp item.1 item.2 t) map.tree := by
    induction items with
    | nil => exact fun _ => rfl
    | cons item items ih =>
      intro map
      rw [List.foldl_cons,List.foldl_cons,ih,(stringmapInsert_tree map item.1 item.2).2]
  exact hfold (stringmapNew zero)

/-- What the tree has for a key after insertions. -/
theorem inserted_find (zero : α) (items : List (List Char×α)) (key : List Char) :
    find strcmp key (inserted zero items).tree=items.lookup key := by
  rw [inserted_tree,find_foldl_insert strcmp_eq_iff]
  exact Option.none_or

/-- Inserting a key that is there changes nothing. -/
theorem stringmapInsert_found {data : α} (h : find strcmp key map.tree=some d) :
    stringmapInsert map key data=(some d,map) := by
  obtain ⟨hexisting,htree⟩ := stringmapInsert_tree map key data
  rw [insert_found (by rw [h]; rfl)] at htree
  have hroot : map.key≠none := by
    intro hnone
    rw [Map.tree,hnone] at h
    cases h
  exact Prod.ext (hexisting.trans h) (map_ext htree hroot)

/-- A map that was inserted into is a search tree with distinct keys. A search returns the node
with the value of the first insertion of its key, and NULL exactly if there was none;
inserting a key that is there returns its value and changes nothing. -/
theorem stringmap_first_write (zero : α) (items : List (List Char×α)) :
    Ordered strcmp (inserted zero items).tree ∧ (keys (inserted zero items).tree).Nodup ∧
      (∀ key d,items.lookup key=some d→
        ∃ l g,stringmapFind (inserted zero items) key=some (.node key d l g)) ∧
      (∀ key,stringmapFind (inserted zero items) key=none ↔ key∉items.map Prod.fst) ∧
      ∀ key data,match items.lookup key with
        | some d => stringmapInsert (inserted zero items) key data=(some d,inserted zero items)
        | none => (stringmapInsert (inserted zero items) key data).1=none := by
  have hord : Ordered strcmp (inserted zero items).tree := by
    rw [inserted_tree]
    exact Ordered.foldl_insert strcmp_eq_iff items trivial
  refine ⟨hord,hord.nodup strcmp_eq_iff,fun key d hd => ?_,fun key => ?_,fun key data => ?_⟩
  · rcases stringmapFind_cases (inserted zero items) key with ⟨hf,-⟩|⟨d',l,g,hf,hnode⟩
    · rw [inserted_find,hd] at hf
      cases hf
    · rw [inserted_find,hd] at hf
      cases hf
      exact ⟨l,g,hnode⟩
  · have hnone : items.lookup key=none ↔ key∉items.map Prod.fst := by
      rw [List.lookup_eq_none_iff]
      refine ⟨fun h hm => ?_,fun h item hi => ?_⟩
      · obtain ⟨item,hi,rfl⟩ := List.mem_map.mp hm
        simpa using h item hi
      · exact bne_iff_ne.mpr fun he => h (he ▸ List.mem_map_of_mem hi)
    rw [← hnone,← inserted_find zero]
    rcases stringmapFind_cases (inserted zero items) key with ⟨hf,hnode⟩|⟨d,l,g,hf,hnode⟩
    · rw [hf,hnode]
      exact ⟨fun _ => rfl,fun _ => rfl⟩
    · rw [hf,hnode]
      exact ⟨nofun,nofun⟩
  · cases hl : items.lookup key with
    | none =>
      have hfirst := (stringmapInsert_tree (inserted zero items) key data).1
      rwa [inserted_find,hl] at hfirst
    | some d => exact stringmapInsert_found ((inserted_find zero items key).trans hl)

end IftopColor.Stringmap
