import Mathlib.Data.List.Range
import Mathlib.Data.Fin.Basic
import Mathlib.Logic.Function.Basic

/-!
# Queues in a ring of slots

A ring has a write index and a read index, both inside the ring, and keeps one
slot free: it is empty when the indices agree and full when the write index is
one behind the read index. The content is the list of the slots from the read
index up to the write index, around the end of the ring.
-/

namespace IftopColor.RingQueue

/-- Ring of `size` slots; a slot that was never written is empty. -/
structure Ring (α : Type) (size : ℕ) where
  /-- The slots. -/
  slots : ℕ→Option α
  /-- Index of the next write. -/
  head : ℕ
  /-- Index of the next read. -/
  tail : ℕ
  /-- The write index is in the ring. -/
  head_lt : head<size
  /-- The read index is in the ring. -/
  tail_lt : tail<size

variable {α : Type} {size : ℕ}

/-- The empty ring. -/
def Ring.empty (h : 0<size) : Ring α size := ⟨fun _ => none,0,0,h,h⟩

/-- No slot is free. -/
def Ring.Full (q : Ring α size) : Prop := (q.head+1)%size=q.tail

instance (q : Ring α size) : Decidable q.Full := inferInstanceAs (Decidable (_=_))

/-- Write a slot and advance the write index. -/
def Ring.push (a : α) (q : Ring α size) : Ring α size :=
  {q with
    slots := Function.update q.slots q.head (some a)
    head := (q.head+1)%size
    head_lt := Nat.mod_lt _ (Nat.zero_lt_of_lt q.head_lt)}

/-- Advance the read index past a slot. -/
def Ring.pop (q : Ring α size) : Ring α size :=
  {q with
    tail := (q.tail+1)%size
    tail_lt := Nat.mod_lt _ (Nat.zero_lt_of_lt q.tail_lt)}

/-- Number of slots in use. -/
def Ring.length (q : Ring α size) : ℕ := (q.head+size-q.tail)%size

/-- Slots in use, oldest first. -/
def Ring.content (q : Ring α size) : List (Option α) :=
  (List.range q.length).map fun i => q.slots ((q.tail+i)%size)

variable {q : Ring α size}

/-- An index past the end of the ring by less than a round. -/
theorem add_mod_ring {i j : ℕ} (hi : i<size) (hj : j<size) :
    (i+j)%size=if i+j<size then i+j else i+j-size := by
  split
  · exact Nat.mod_eq_of_lt (by omega)
  · rw [Nat.mod_eq_sub_mod (by omega)]
    exact Nat.mod_eq_of_lt (by omega)

/-- The length is the difference of head and tail, one size more if the head has wrapped. -/
theorem length_eq (q : Ring α size) :
    q.length=if q.tail≤q.head then q.head-q.tail else q.head+size-q.tail := by
  have hh := q.head_lt
  have ht := q.tail_lt
  unfold Ring.length
  split
  · rw [show q.head+size-q.tail=q.head-q.tail+size by omega,Nat.add_mod_right]
    exact Nat.mod_eq_of_lt (by omega)
  · exact Nat.mod_eq_of_lt (by omega)

/-- One slot always stays free, so the ring is never full. -/
theorem length_lt (q : Ring α size) : q.length<size :=
  Nat.mod_lt _ (Nat.zero_lt_of_lt q.head_lt)

/-- The content has as many slots as are in use. -/
theorem length_content (q : Ring α size) : q.content.length=q.length := by simp [Ring.content]

/-- The ring is empty exactly when the indices agree. -/
theorem content_eq_nil_iff : q.content=[] ↔ q.head=q.tail := by
  have hh := q.head_lt
  have ht := q.tail_lt
  rw [←List.length_eq_zero_iff,length_content,length_eq]
  split <;> omega

/-- The ring at the start has no content. -/
theorem content_empty (h : 0<size) : (Ring.empty h : Ring α size).content=[] :=
  content_eq_nil_iff.mpr rfl

/-- The successor of an index is the next one, or zero at the end of the array. -/
theorem succ_mod_ring {i : ℕ} (hi : i<size) : (i+1)%size=if i+1<size then i+1 else 0 := by
  split
  · exact Nat.mod_eq_of_lt (by omega)
  · rw [show i+1=size by omega,Nat.mod_self]

/-- A push into a ring that is not full adds one slot. -/
theorem length_push (a : α) (h : ¬q.Full) : (q.push a).length=q.length+1 := by
  have hh := q.head_lt
  have ht := q.tail_lt
  have hs := succ_mod_ring hh
  have hp : (q.push a).head=(q.head+1)%size := rfl
  have hq : (q.push a).tail=q.tail := rfl
  unfold Ring.Full at h
  rw [length_eq,length_eq,hp,hq]
  split_ifs at hs ⊢ <;> omega

/-- The write index is right after the content. -/
theorem head_eq_tail_add (q : Ring α size) : q.head=(q.tail+q.length)%size := by
  have hh := q.head_lt
  have ht := q.tail_lt
  have hl := length_lt q
  rw [add_mod_ring ht hl,length_eq]
  split_ifs <;> omega

/-- A push into a ring that is not full appends to the content; no slot in use
is overwritten. -/
theorem content_push (a : α) (h : ¬q.Full) : (q.push a).content=q.content++[some a] := by
  have ht := q.tail_lt
  have hl := length_lt q
  have hhead := head_eq_tail_add q
  rw [Ring.content,length_push a h,List.range_succ,List.map_append]
  congr 1
  · apply List.map_congr_left
    intro i hi
    have hi := List.mem_range.mp hi
    refine Function.update_of_ne ?_ _ _
    rw [hhead]
    change (q.tail+i)%size≠_
    rw [add_mod_ring ht (by omega),add_mod_ring ht hl]
    split_ifs <;> omega
  · have hs : (q.push a).slots ((q.tail+q.length)%size)=some a := by
      rw [←hhead]
      exact Function.update_self ..
    simp only [List.map_cons,List.map_nil]
    exact congrArg (·::[]) hs

/-- A pop takes the oldest slot off the content. -/
theorem content_pop (h : q.head≠q.tail) : q.content=q.slots q.tail::q.pop.content := by
  have hh := q.head_lt
  have ht := q.tail_lt
  have hl := length_lt q
  have hs := succ_mod_ring ht
  have hp : q.pop.tail=(q.tail+1)%size := rfl
  have hq : q.pop.head=q.head := rfl
  have hlen : q.length=q.pop.length+1 := by
    rw [length_eq,length_eq,hp,hq]
    split_ifs at hs ⊢ <;> omega
  rw [Ring.content,hlen,List.range_succ_eq_map,List.map_cons,List.map_map,Nat.add_zero,
    Nat.mod_eq_of_lt ht]
  congr 1
  apply List.map_congr_left
  intro i hi
  have hi := List.mem_range.mp hi
  change q.slots ((q.tail+(i+1))%size)=q.slots (((q.tail+1)%size+i)%size)
  congr 1
  rw [Nat.mod_add_mod]
  congr 1
  omega

end IftopColor.RingQueue
