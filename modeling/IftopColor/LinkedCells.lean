import Mathlib.Data.List.Nodup
import Mathlib.Logic.Function.Basic

/-!
# Linked cells

Memory cells are linked by a function that gives the next cell of each cell, or
none at the end. A segment is the list of cells met on the way from one pointer
to another; a chain is a segment that ends with a null pointer. A chain is
determined by its first pointer and never meets a cell twice. Loops that walk
or search along a chain are described by what they do to its list, and one rule
covers all changes of a single link: the cells before it stay, the cells behind
it are replaced.
-/

namespace IftopColor.LinkedCells

variable {α : Type} {next next' : α→Option α} {start stop : Option α} {xs ys zs : List α} {a : α}

/-- Following the links from `start` meets the given cells and arrives at `stop`. -/
def Seg (next : α→Option α) : Option α→List α→Option α→Prop
  | start,[],stop => start=stop
  | start,a::as,stop => start=some a ∧ Seg next (next a) as stop

/-- Following the links from `start` meets the given cells and ends. -/
abbrev Chain (next : α→Option α) (start : Option α) (cells : List α) : Prop :=
  Seg next start cells none

@[simp] theorem seg_nil : Seg next start [] stop ↔ start=stop := Iff.rfl

@[simp] theorem seg_cons : Seg next start (a::xs) stop ↔ start=some a ∧ Seg next (next a) xs stop :=
  Iff.rfl

/-- Segments can be put together and taken apart. -/
theorem seg_append : Seg next start (xs++ys) stop ↔
    ∃ mid,Seg next start xs mid ∧ Seg next mid ys stop := by
  induction xs generalizing start with
  | nil => simp
  | cons x xs ih => simp [ih,and_assoc]

/-- The first cell of a chain is the one that its pointer leads to. -/
theorem Chain.head?_eq (h : Chain next start xs) : xs.head?=start := by
  cases xs with
  | nil => exact h.symm
  | cons x xs => exact h.1.symm

/-- A segment depends on the links of its own cells only. -/
theorem Seg.congr (h : Seg next start xs stop) (he : ∀ a∈xs,next' a=next a) :
    Seg next' start xs stop := by
  induction xs generalizing start with
  | nil => exact h
  | cons x xs ih =>
    refine ⟨h.1,?_⟩
    rw [he x (List.mem_cons_self ..)]
    exact ih h.2 fun a ha => he a (List.mem_cons_of_mem _ ha)

/-- A pointer starts at most one chain. -/
theorem Chain.unique (h : Chain next start xs) (h' : Chain next start ys) : xs=ys := by
  induction xs generalizing start ys with
  | nil =>
    obtain rfl : start=none := h
    cases ys with
    | nil => rfl
    | cons y ys => cases h'.1
  | cons x xs ih =>
    obtain ⟨rfl,h⟩ := h
    cases ys with
    | nil => cases h'
    | cons y ys =>
      obtain ⟨he,h'⟩ := h'
      cases he
      rw [ih h h']

/-- The chain from a cell of a chain is the rest of that chain. -/
theorem Chain.rest (h : Chain next start (xs++a::ys)) : Chain next (next a) ys := by
  obtain ⟨mid,-,-,h⟩ := seg_append.mp h
  exact h

/-- A chain meets no cell twice, so it is finite and has no cycle. -/
theorem Chain.nodup (h : Chain next start xs) : xs.Nodup := by
  induction xs generalizing start with
  | nil => exact List.nodup_nil
  | cons x xs ih =>
    refine List.nodup_cons.mpr ⟨fun hx => ?_,ih h.2⟩
    obtain ⟨ws,vs,hxs⟩ := List.append_of_mem hx
    have htail : Chain next (next x) (ws++x::vs) := by
      rw [←hxs]
      exact h.2
    have hrest : Chain next (next x) vs := Chain.rest htail
    have hlen := congrArg List.length (Chain.unique h.2 hrest)
    rw [hxs,List.length_append,List.length_cons] at hlen
    omega

/-- The cells met from a pointer on, at most `fuel` of them. -/
def walk (next : α→Option α) : ℕ→Option α→List α
  | 0,_ => []
  | _+1,none => []
  | fuel+1,some a => a::walk next fuel (next a)

/-- A walk meets the cells of the chain. -/
theorem walk_eq (h : Chain next start xs) {fuel : ℕ} (hf : xs.length≤fuel) :
    walk next fuel start=xs := by
  induction xs generalizing start fuel with
  | nil =>
    obtain rfl : start=none := h
    cases fuel <;> rfl
  | cons x xs ih =>
    obtain ⟨rfl,h⟩ := h
    cases fuel with
    | zero => cases hf
    | succ fuel => rw [walk,ih h (Nat.le_of_succ_le_succ hf)]

/-- The loop `while (node && !p(node)) {prev = node; node = node->next;}`. -/
def search (next : α→Option α) (p : α→Bool) : ℕ→Option α→Option α→Option α×Option α
  | 0,prev,node => (prev,node)
  | _+1,prev,none => (prev,none)
  | fuel+1,prev,some a => if p a then (prev,some a) else search next p fuel (some a) (next a)

/-- A search stops behind the cells that fail the test. -/
theorem search_eq {p : α→Bool} {prev : Option α} (h : Chain next start (xs++ys))
    (hx : ∀ x∈xs,p x=false) (hy : ∀ y,ys.head?=some y→p y=true) {fuel : ℕ}
    (hf : (xs++ys).length≤fuel) :
    search next p fuel prev start=(xs.getLast?.or prev,ys.head?) := by
  induction xs generalizing start fuel prev with
  | nil =>
    obtain rfl : ys.head?=start := Chain.head?_eq h
    cases fuel with
    | zero => rfl
    | succ fuel =>
      cases hd : ys.head? with
      | none => rfl
      | some y =>
        rw [search,if_pos (hy y hd)]
        rfl
  | cons x xs ih =>
    obtain ⟨rfl,h⟩ := h
    cases fuel with
    | zero => cases hf
    | succ fuel =>
      have hpx : ¬p x=true := by simp [hx x (List.mem_cons_self ..)]
      rw [search,if_neg hpx,ih h (fun a ha => hx a (List.mem_cons_of_mem _ ha))
        (Nat.le_of_succ_le_succ hf)]
      cases xs with
      | nil => rfl
      | cons x' xs =>
        rw [List.getLast?_cons_cons]
        cases hl : (x'::xs).getLast? with
        | none => simp at hl
        | some l => rfl

section Draining

variable {σ β : Type} (links : σ→α→Option α) (release : σ→α→σ)

/-- The loop `while (node) {next = node->next; release(node); node = next;}`. -/
def drain : ℕ→Option α→σ→σ
  | 0,_,s => s
  | _+1,none,s => s
  | fuel+1,some a,s => drain fuel (links s a) (release s a)

variable {links release}

/-- Links of other cells survive a list of releases. -/
theorem links_foldl (hf : ∀ s a b,b≠a→links (release s a) b=links s b) (xs : List α) {b : α}
    (hb : b∉xs) (s : σ) : links (xs.foldl release s) b=links s b := by
  induction xs generalizing s with
  | nil => rfl
  | cons x xs ih =>
    rw [List.mem_cons,not_or] at hb
    rw [List.foldl_cons,ih hb.2,hf s x b hb.1]

/-- The loop releases the cells of the chain, in order, whatever a release writes to its
own cell. -/
theorem drain_eq (hf : ∀ s a b,b≠a→links (release s a) b=links s b) {s : σ} {fuel : ℕ}
    (h : Chain (links s) start xs) (hl : xs.length≤fuel) :
    drain links release fuel start s=xs.foldl release s := by
  induction xs generalizing start s fuel with
  | nil =>
    obtain rfl : start=none := h
    cases fuel <;> rfl
  | cons x xs ih =>
    have hx := (List.nodup_cons.mp (Chain.nodup h)).1
    obtain ⟨rfl,h⟩ := h
    cases fuel with
    | zero => cases hl
    | succ fuel =>
      refine ih (Seg.congr h fun a ha => hf s x a ?_) (Nat.le_of_succ_le_succ hl)
      rintro rfl
      exact hx ha

/-- The loop over several chains releases all of their cells, in order. -/
theorem drainAll_eq (hf : ∀ s a b,b≠a→links (release s a) b=links s b) {heads : β→Option α}
    {chain : β→List α} {fuel : ℕ} (bs : List β) :
    ∀ s,(∀ b∈bs,Chain (links s) (heads b) (chain b))→(bs.flatMap chain).Nodup→
      (∀ b∈bs,(chain b).length≤fuel)→
      bs.foldl (fun s b => drain links release fuel (heads b) s) s=
        (bs.flatMap chain).foldl release s := by
  induction bs with
  | nil => exact fun s _ _ _ => rfl
  | cons b bs ih =>
    intro s hc hnodup hl
    rw [List.flatMap_cons] at hnodup ⊢
    obtain ⟨-,hnodup,hd⟩ := List.nodup_append.mp hnodup
    rw [List.foldl_cons,List.foldl_append,
      drain_eq hf (hc b (List.mem_cons_self ..)) (hl b (List.mem_cons_self ..))]
    refine ih _ (fun b' hb' => ?_) hnodup fun b' hb' => hl b' (List.mem_cons_of_mem _ hb')
    -- the later chains do not meet the cells that were released
    refine Seg.congr (hc b' (List.mem_cons_of_mem _ hb')) fun a ha => links_foldl hf _ ?_ s
    exact fun hin => hd a hin a (List.mem_flatMap.mpr ⟨b',hb',ha⟩) rfl

end Draining

variable [DecidableEq α]

/-- Let the cell `prev`, or the first pointer when there is none, point to `v`. -/
def relink (prev v : Option α) (start : Option α) (next : α→Option α) : Option α×(α→Option α) :=
  match prev with
  | none => (v,next)
  | some p => (start,Function.update next p v)

/-- Changing the link behind `xs` replaces what follows. -/
theorem relink_chain {v : Option α} (h : Chain next start (xs++ys)) (hz : Chain next v zs)
    (hd : ∀ p,xs.getLast?=some p→p∉zs) :
    Chain (relink xs.getLast? v start next).2 (relink xs.getLast? v start next).1 (xs++zs) := by
  rcases List.eq_nil_or_concat xs with rfl|⟨ws,p,rfl⟩
  · exact hz
  · rw [List.concat_eq_append] at h hd ⊢
    have hp : (ws++[p]).getLast?=some p := by simp
    have hnodup : (ws++[p]).Nodup := (Chain.nodup h).of_append_left
    have hw : p∉ws := fun hm => (List.nodup_append.mp hnodup).2.2 p hm p (by simp) rfl
    have hz' : p∉zs := hd p hp
    rw [hp]
    obtain ⟨mid,h1,-⟩ := seg_append.mp h
    obtain ⟨mid',h2,h3,-⟩ := seg_append.mp h1
    refine seg_append.mpr ⟨v,seg_append.mpr ⟨mid',?_,h3,?_⟩,?_⟩
    · refine h2.congr fun a ha => Function.update_of_ne ?_ _ _
      rintro rfl
      exact hw ha
    · simp [relink]
    · refine Seg.congr hz fun a ha => Function.update_of_ne ?_ _ _
      rintro rfl
      exact hz' ha

end IftopColor.LinkedCells
