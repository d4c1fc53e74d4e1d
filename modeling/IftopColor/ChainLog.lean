import IftopColor.ChainHeap
import Mathlib.Data.List.Find

/-!
# Chained tables as logs

What a chained table stands for is the log of its insertions, newest first, without
those that were deleted since. Each chain is the part of the log that hashes to its
bucket, so a lookup finds the newest entry of a key, a removal erases one entry of the
log, and a walk over all buckets meets every entry of the log once. In memory this is
a statement about pointers, which is what an operation on pointers has to keep.
-/

namespace IftopColor.ChainLog

open ChainTable LinkedCells ChainHeap

variable {κ ρ : Type} {S : HashSpec κ} {t : Table S ρ} {log : List (Node κ ρ)}

/-- The chains are the log, bucket by bucket. -/
structure Logged (t : Table S ρ) (log : List (Node κ ρ)) : Prop where
  /-- Each chain is the part of the log with its bucket. -/
  chains : ∀ b,t.chain b=log.filter fun m => m.bucket==b
  /-- The cached bucket is the hash of the key. -/
  placed : ∀ m∈log,m.bucket=S.hash m.key

/-- The log of an empty table has no entries. -/
theorem logged_empty : Logged (Table.empty : Table S ρ) [] := ⟨fun _ => rfl,by simp⟩

/-- A bucket is the part of the log that has its number. -/
theorem Logged.mem_chain_iff (h : Logged t log) {b : ℕ} {m : Node κ ρ} :
    m∈t.chain b ↔ m∈log ∧ m.bucket=b := by
  rw [h.chains b,List.mem_filter,beq_iff_eq]

/-- The parts of a list by bucket make up the entries below one more bound. -/
theorem perm_buckets (log : List (Node κ ρ)) (k : ℕ) :
    ((List.range k).flatMap fun b => log.filter fun m => m.bucket==b).Perm
      (log.filter fun m => m.bucket<k) := by
  induction k with
  | zero => simp
  | succ k ih =>
    rw [List.range_succ,List.flatMap_append,List.flatMap_singleton]
    have hsplit := List.filter_append_perm (fun m => decide (m.bucket<k))
      (log.filter fun m => decide (m.bucket<k+1))
    simp only [List.filter_filter] at hsplit
    refine (ih.append_right _).trans (.trans (.of_eq ?_) hsplit)
    congr 1 <;> refine List.filter_congr fun m _ => ?_ <;> grind

/-- The table has the nodes of the log. -/
theorem Logged.perm (h : Logged t log) : t.nodes.Perm log := by
  have hall : log.filter (fun m => m.bucket<S.size)=log := by
    refine List.filter_eq_self.mpr fun m hm => ?_
    rw [h.placed m hm]
    exact decide_eq_true (S.hash_lt _)
  have hp := perm_buckets log S.size
  rw [hall,←List.flatMap_congr fun b _ => h.chains b] at hp
  rwa [Table.nodes]

/-- Putting a node in front of its chain is a new first entry of the log. -/
theorem Logged.push (h : Logged t log) (a : ℕ) (key : κ) (record : ρ) :
    Logged (t.push a key record) (⟨a,key,record,S.hash key⟩::log) := by
  refine ⟨fun b => ?_,fun m hm => ?_⟩
  · simp only [Table.push,Table.setChain]
    by_cases hb : b=S.hash key
    · subst hb
      rw [Function.update_self,List.filter_cons_of_pos (by simp),h.chains]
    · rw [Function.update_of_ne hb,List.filter_cons_of_neg (by simpa using Ne.symm hb),h.chains]
  · rcases List.mem_cons.mp hm with rfl|hm
    · rfl
    · exact h.placed m hm

/-- A search of a bucket finds the newest entry that fits, if only entries of the bucket
fit. -/
theorem Logged.find_bucket (h : Logged t log) {b : ℕ} {q : Node κ ρ→Bool}
    (hq : ∀ m∈log,q m=true→m.bucket=b) : (t.chain b).find? q=log.find? q := by
  rw [h.chains,List.find?_filter]
  refine List.find?_congr fun m hm => ?_
  by_cases hqm : q m=true
  · simp [hqm,hq m hm hqm]
  · simp [hqm]

/-- Entries that compare equal to a key are in its bucket. -/
theorem Logged.bucket_of_compare (h : Logged t log) {key : κ} {m : Node κ ρ} (hm : m∈log)
    (hc : S.compare m.key key=true) : m.bucket=S.hash key := by
  rw [h.placed m hm,S.hash_eq _ _ hc]

/-- A lookup finds the newest entry that compares equal. -/
theorem Logged.find (h : Logged t log) (key : κ) :
    t.find key=log.find? fun m => S.compare m.key key :=
  h.find_bucket fun _ hm hc => h.bucket_of_compare hm hc

/-- Erasing an entry that a filter drops. -/
theorem filter_eraseP_of_not {p q : Node κ ρ→Bool} (hpq : ∀ m∈log,q m=true→p m=false) :
    (log.eraseP q).filter p=log.filter p := by
  induction log with
  | nil => rfl
  | cons m log ih =>
    have hi := ih fun m hm => hpq m (List.mem_cons_of_mem _ hm)
    by_cases hq : q m=true
    · have hp := hpq m (List.mem_cons_self ..) hq
      rw [List.eraseP_cons_of_pos hq,List.filter_cons_of_neg (by simp [hp])]
    · rw [List.eraseP_cons_of_neg hq]
      by_cases hp : p m=true
      · rw [List.filter_cons_of_pos hp,List.filter_cons_of_pos hp,hi]
      · rw [List.filter_cons_of_neg hp,List.filter_cons_of_neg hp,hi]

/-- Erasing by a test that the filter's members decide. -/
theorem filter_eraseP_of_imp {p q : Node κ ρ→Bool} (hpq : ∀ m∈log,q m=true→p m=true) :
    (log.eraseP q).filter p=(log.filter p).eraseP q := by
  rw [List.eraseP_filter]
  congr 1
  induction log with
  | nil => rfl
  | cons m log ih =>
    have hi := ih fun m hm => hpq m (List.mem_cons_of_mem _ hm)
    by_cases hq : q m=true
    · rw [List.eraseP_cons_of_pos hq,
        List.eraseP_cons_of_pos (by simp [hq,hpq m (List.mem_cons_self ..) hq])]
    · rw [List.eraseP_cons_of_neg hq,List.eraseP_cons_of_neg (by simp [hq]),hi]

/-- Unlinking the first node of a bucket that fits erases the newest entry that fits. -/
theorem Logged.unlink (h : Logged t log) {b : ℕ} {q : Node κ ρ→Bool}
    (hq : ∀ m∈log,q m=true→m.bucket=b) : Logged (t.unlink b q) (log.eraseP q) := by
  refine ⟨fun b' => ?_,fun m hm => h.placed m (List.mem_of_mem_eraseP hm)⟩
  simp only [Table.unlink,Table.setChain]
  by_cases hb : b'=b
  · subst hb
    rw [Function.update_self,h.chains,filter_eraseP_of_imp fun m hm hqm => by
      simp [hq m hm hqm]]
  · rw [Function.update_of_ne hb,h.chains,filter_eraseP_of_not fun m hm hqm => by
      simpa [hq m hm hqm] using Ne.symm hb]

/-- The first element that fits was taken out, and nothing else. -/
def RemovesFirst {α : Type} (q : α→Bool) (old new : List α) : Prop :=
  ∃ xs m ys,old=xs++m::ys ∧ (∀ x∈xs,q x=false) ∧ q m=true ∧ new=xs++ys

/-- What erasing does to an element that was found. -/
theorem eraseP_of_find {q : Node κ ρ→Bool} {m : Node κ ρ} (hf : log.find? q=some m) :
    ∃ xs ys,log=xs++m::ys ∧ (∀ x∈xs,q x=false) ∧ q m=true ∧ log.eraseP q=xs++ys := by
  obtain ⟨hm,xs,ys,hs,hx⟩ := List.find?_eq_some_iff_append.mp hf
  have hneg : ∀ x∈xs,q x=false := fun x hxs => by simpa using hx x hxs
  refine ⟨xs,ys,hs,hneg,hm,?_⟩
  rw [hs,List.eraseP_append_right _ fun x hxs => by simp [hneg x hxs],List.eraseP_cons_of_pos hm]

/-- Erasing takes out the first element that fits, or nothing if none fits. -/
theorem eraseP_cases (q : Node κ ρ→Bool) (log : List (Node κ ρ)) :
    (∃ m,log.find? q=some m ∧ RemovesFirst q log (log.eraseP q)) ∨
      (log.find? q=none ∧ (∀ m∈log,q m=false) ∧ log.eraseP q=log) := by
  cases hf : log.find? q with
  | none =>
    have hno := List.find?_eq_none.mp hf
    exact .inr ⟨rfl,fun m hm => by simpa using hno m hm,List.eraseP_of_forall_not hno⟩
  | some m =>
    obtain ⟨xs,ys,he⟩ := eraseP_of_find hf
    exact .inl ⟨m,rfl,xs,m,ys,he⟩

/-- Unlinking takes one node out of the table. -/
theorem Logged.unlink_perm (h : Logged t log) {b : ℕ} {q : Node κ ρ→Bool}
    (hq : ∀ m∈log,q m=true→m.bucket=b) {m : Node κ ρ} (hf : log.find? q=some m) :
    t.nodes.Perm (m::(t.unlink b q).nodes) := by
  have he : log.Perm (m::log.eraseP q) := by
    obtain ⟨xs,ys,hs,-,-,he⟩ := eraseP_of_find hf
    rw [he,hs]
    exact List.perm_middle
  exact (h.perm.trans he).trans ((h.unlink hq).perm.symm.cons m)

/-- What the pointers of a table say about a log: `next` is the iterator of the table and
`find` its lookup. -/
structure Represents (S : HashSpec κ) (mem : Mem κ ρ) (heads : Heads) (next : Option ℕ→Option ℕ)
    (find : κ→Option ρ) (log : List (Node κ ρ)) : Prop where
  /-- Along each chain one meets the entries that have its bucket, newest first. -/
  chains : ∀ b<S.size,
    Chain (nextOf mem) (heads b) ((log.filter fun m => m.bucket==b).map Node.addr)
  /-- Every entry is in its cell, under the hash of its key, which is a bucket. -/
  nodes : ∀ m∈log,nodeAt mem m.addr=m ∧ m.bucket=S.hash m.key ∧ m.bucket<S.size
  /-- A lookup returns the record of the newest entry of the key. -/
  find_eq : ∀ key,find key=(log.find? fun m => S.compare m.key key).map Node.record
  /-- A search fails if there is no entry of the key, and only then. -/
  find_none : ∀ key,find key=none ↔ ∀ m∈log,S.compare m.key key=false
  /-- Iterating meets every entry once and ends. -/
  iterates : ∃ cells,Chain (fun a => next (some a)) (next none) cells ∧
    cells.Perm (log.map Node.addr) ∧ cells.Nodup

variable {mem : Mem κ ρ} {heads : Heads}

/-- The iterator meets the nodes in order and ends. -/
theorem nextCell_chain (h : Holds mem heads t) (ha : t.Addressed) :
    Chain (fun a => nextCell S mem heads (some a)) (nextCell S mem heads none)
      (t.nodes.map Node.addr) := by
  have hrest : ∀ ys xs : List (Node κ ρ),t.nodes=xs++ys→
      Chain (fun a => nextCell S mem heads (some a)) (ys.head?.map Node.addr)
        (ys.map Node.addr) := by
    intro ys
    induction ys with
    | nil => exact fun xs _ => rfl
    | cons n ys ih =>
      intro xs hs
      have hn : n∈t.nodes := by
        rw [hs]
        simp
      refine ⟨rfl,?_⟩
      dsimp only
      rw [nextCell_eq h hn,next_eq ha hs]
      exact ih (xs++[n]) (by rw [hs]; simp)
  rw [nextCell_none h,next_none]
  exact hrest t.nodes [] rfl

/-- Memory that holds a logged table represents its log. -/
theorem Logged.represents (hl : Logged t log) (h : Holds mem heads t) (ha : t.Addressed)
    {find : κ→Option ρ} (hf : ∀ key,find key=(t.find key).map Node.record) :
    Represents S mem heads (nextCell S mem heads) find log where
  chains b hb := by
    rw [←hl.chains b]
    exact h.chains b hb
  nodes m hm := by
    have hb := hl.placed m hm
    refine ⟨h.nodes m (hl.perm.symm.subset hm),hb,?_⟩
    rw [hb]
    exact S.hash_lt _
  find_eq key := by rw [hf,hl.find]
  find_none key := by
    rw [hf,hl.find,Option.map_eq_none_iff,List.find?_eq_none]
    simp only [Bool.not_eq_true]
  iterates := ⟨_,nextCell_chain h ha,hl.perm.map _,ha⟩

end IftopColor.ChainLog
