import IftopColor.GuardedRun
import IftopColor.SortedList

/-!
# Drawing without the mutex

Most keys that change the display make the key loop call `ui_print` outside `tick_mutex`. While it
walks along the screen list, a packet can make the capture thread call `tick`, and `analyse_data`
frees the nodes of the list, then the lines they lead to, and builds both anew. A drawing that is
not overtaken by this reads allocated memory only. A drawing that is overtaken holds a pointer to
freed memory from then on, and reads it as soon as it goes on.
-/

namespace IftopColor.DrawRace

open LinkedCells SortedList GuardedRun

/-- Where `analyse_data` is. -/
inductive Phase where
  /-- The thread does not run, or it leaves the list alone. -/
  | idle
  /-- `screen_list_clear` has freed the nodes. -/
  | cleared
  /-- `addr_hash_delete_all_free` has freed the lines, and new ones are made. -/
  | building
  deriving DecidableEq

/-- A call of `ui_print` outside the mutex. -/
structure Cursor where
  /-- `nn`. -/
  node : Option ℕ
  /-- `screen_line`. -/
  line : Option ℕ
  /-- The list has been cleared since `nn` was read. -/
  cleared : Bool
  /-- The lines have been freed since `screen_line` was read. -/
  freed : Bool

/-- What the two threads share. -/
structure Display where
  /-- `screen_list`, whose items are pointers to lines. -/
  list : SortedListType ℕ
  /-- The lines in allocated memory. -/
  lines : List ℕ
  /-- Lines from here on were never handed out. -/
  lineBrk : ℕ
  /-- The analysis, on the capture thread. -/
  phase : Phase
  /-- The drawing, on the thread of the keys. -/
  drawer : Option Cursor
  /-- Freed memory was read. -/
  fault : Bool

/-- What happens next. -/
inductive Action where
  /-- A key makes the key loop call `ui_print`. -/
  | draw
  /-- `sorted_list_next_item`. -/
  | next
  /-- `nn->data` is read. -/
  | load
  /-- The line is read. -/
  | look
  /-- The drawing ends. -/
  | finish
  /-- `screen_list_clear`. -/
  | clear
  /-- `addr_hash_delete_all_free`. -/
  | free
  /-- A line is made. -/
  | calloc
  /-- `sorted_list_insert_batch`. -/
  | publish

/-- Nothing is on the screen. -/
def initDisplay : Display := ⟨sortedListInitialise,[],0,.idle,none,false⟩

/-- `nn` is assigned; without a node the loops end. -/
def Display.advance (s : Display) (node : Option ℕ) : Display :=
  {s with drawer := node.map fun p => ⟨some p,none,false,false⟩}

/-- Freed memory is read. -/
def Display.failed (s : Display) : Display := {s with fault := true}

section Steps

variable (qsort : (ℕ→ℕ→ℤ)→List ℕ→List ℕ) (compare : ℕ→ℕ→ℤ)

/-- The effect of a step of the drawing that looks at memory. -/
def read (s : Display) (c : Cursor) : Action→Option Display
  | .next =>
    match c.node with
    | none => some (s.advance s.list.rootNext)
    | some p =>
      match s.list.heap p with
      | none => some s.failed
      | some n => some (s.advance n.next)
  | .load =>
    match c.node with
    | none => none
    | some p =>
      match s.list.heap p with
      | none => some s.failed
      | some n => some {s with drawer := some {c with line := some n.data,freed := false}}
  | .look =>
    match c.line with
    | none => none
    | some l => if l∈s.lines then some s else some s.failed
  | .finish => some {s with drawer := none}
  | _ => none

/-- The effect of a step of the analysis, which runs when the options do not freeze the display. -/
def analyse (s : Display) : Action→Option Display
  | .clear =>
    if s.phase=.idle then
      some {s with
        list := sortedListDestroy s.list
        phase := .cleared
        drawer := s.drawer.map fun c => {c with cleared := true}}
    else none
  | .free =>
    if s.phase=.cleared then
      some {s with
        lines := []
        phase := .building
        drawer := s.drawer.map fun c => {c with freed := true}}
    else none
  | .calloc =>
    if s.phase=.building then
      some {s with lines := s.lineBrk::s.lines,lineBrk := s.lineBrk+1}
    else none
  | .publish =>
    if s.phase=.building then
      some {s with list := sortedListInsertBatch qsort compare s.lines s.list,phase := .idle}
    else none
  | _ => none

/-- The effect of an action, or `none` when it is not enabled; the program is not followed beyond
a read of freed memory. -/
def next (s : Display) (a : Action) : Option Display :=
  if s.fault then none
  else
    match a with
    | .draw => if s.drawer.isNone then some {s with drawer := some ⟨none,none,false,false⟩} else none
    | a => (s.drawer.bind fun c => read s c a).or (analyse qsort compare s a)

end Steps

/-- The list is not cleared while it is drawn. -/
def Apart (s : Display) : Action→Prop
  | .clear => s.drawer=none
  | _ => True

/-- A step that reads memory freed since the pointer to it was read. -/
def Stale (c : Cursor) : Action→Prop
  | .next => c.node.isSome ∧ c.cleared=true
  | .load => c.node.isSome ∧ c.cleared=true
  | .look => c.line.isSome ∧ c.freed=true
  | _ => False

/-- The heap holds the nodes of one batch and no others. -/
structure Batch {α : Type} (list : SortedListType α) (base count : ℕ) : Prop where
  /-- The nodes of the heap. -/
  heap : ∀ a,(list.heap a).isSome ↔ base≤a ∧ a<base+count
  /-- The nodes were handed out. -/
  brk : base+count≤list.brk
  /-- The list begins with them. -/
  root : count≠0 → list.rootNext=some base
  /-- The nodes are one block. -/
  block : count≠0 → list.batchAllocated=true ∧ list.blockLen base=count
  /-- Without nodes there is no list. -/
  empty : count=0 → list.rootNext=none

section Batches

variable {α : Type} {list : SortedListType α} {base count : ℕ}

/-- The list at the start is a batch without nodes. -/
theorem batch_initialise : Batch (sortedListInitialise : SortedListType α) 0 0 where
  heap := fun a => ⟨fun h => absurd h Bool.false_ne_true,fun h => absurd h.2 (by omega)⟩
  brk := Nat.le_refl 0
  root := fun h => absurd rfl h
  block := fun h => absurd rfl h
  empty := fun _ => rfl

/-- Clearing the list frees all nodes of the batch and leaves the rest of the heap. -/
theorem Batch.destroy (h : Batch list base count) :
    Batch (sortedListDestroy list) list.brk 0 ∧ (sortedListDestroy list).brk=list.brk := by
  by_cases hc : count=0
  · have hroot := h.empty hc
    have hsame : sortedListDestroy list=list := by
      unfold sortedListDestroy
      rw [hroot]
    rw [hsame]
    refine ⟨⟨?_,Nat.le_refl _,fun hz => absurd rfl hz,fun hz => absurd rfl hz,fun _ => hroot⟩,rfl⟩
    intro a
    rw [h.heap a]
    omega
  · have hroot := h.root hc
    obtain ⟨hbatch,hlen⟩ := h.block hc
    have hsame : sortedListDestroy list=
        {free base list with rootNext := none,batchAllocated := false} := by
      unfold sortedListDestroy
      rw [hroot]
      dsimp only
      rw [if_pos hbatch]
    rw [hsame]
    refine ⟨⟨?_,Nat.le_refl _,fun hz => absurd rfl hz,fun hz => absurd rfl hz,fun _ => rfl⟩,rfl⟩
    intro a
    have hheap := h.heap a
    simp only [free,hlen]
    split
    · rename_i hin
      refine ⟨fun hs => absurd hs Bool.false_ne_true,fun hs => ?_⟩
      omega
    · rename_i hout
      rw [hheap]
      omega

/-- A changed link keeps the nodes of the heap. -/
theorem setNext_isSome (prev node : Option ℕ) (list : SortedListType α) (a : ℕ) :
    ((setNext prev node list).heap a).isSome=(list.heap a).isSome := by
  rw [← Option.isSome_map (f:=ListNode.data),data_setNext,Option.isSome_map]

/-- A linked node is one more node of the heap. -/
theorem linkNode_isSome (prev next : Option ℕ) (node : ℕ) (data : α) (list : SortedListType α)
    (a : ℕ) : ((linkNode prev node data next list).heap a).isSome ↔
      a=node ∨ (list.heap a).isSome := by
  rw [linkNode,setNext_isSome]
  by_cases ha : a=node
  · simp [ha]
  · simp [ha]

/-- The loop over a batch adds its nodes to the heap. -/
theorem linkBatch_isSome (items : List α) (a : ℕ) : ∀ (list : SortedListType α) prev node,
    ((linkBatch list prev node items).heap a).isSome ↔
      node≤a ∧ a<node+items.length ∨ (list.heap a).isSome := by
  induction items with
  | nil =>
    intro list prev node
    rw [linkBatch,List.length_nil]
    constructor
    · exact .inr
    · rintro (h|h)
      · omega
      · exact h
  | cons item items ih =>
    intro list prev node
    rw [linkBatch,ih,linkNode_isSome,List.length_cons]
    constructor
    · rintro (h|h|h)
      · exact .inl (by omega)
      · exact .inl (by omega)
      · exact .inr h
    · rintro (h|h)
      · by_cases ha : a=node
        · exact .inr (.inl ha)
        · exact .inl (by omega)
      · exact .inr (.inr h)

/-- The loop over a batch leaves the allocator alone. -/
theorem linkBatch_memory (items : List α) : ∀ (list : SortedListType α) prev node,
    (linkBatch list prev node items).brk=list.brk ∧
      (linkBatch list prev node items).blockLen=list.blockLen := by
  induction items with
  | nil => exact fun _ _ _ => ⟨rfl,rfl⟩
  | cons item items ih =>
    intro list prev node
    rw [linkBatch]
    obtain ⟨hbrk,hlen⟩ := ih (linkNode prev node item none list) (some node) (node+1)
    rw [hbrk,hlen]
    cases prev <;> exact ⟨rfl,rfl⟩

/-- The root stays while nodes are linked behind a node. -/
theorem linkBatch_root_some (items : List α) : ∀ (list : SortedListType α) p node,
    (linkBatch list (some p) node items).rootNext=list.rootNext := by
  induction items with
  | nil => exact fun _ _ _ => rfl
  | cons item items ih =>
    intro list p node
    rw [linkBatch,ih]
    rfl

/-- A batch is put into an empty heap. -/
theorem Batch.insertBatch {qsort : (α→α→ℤ)→List α→List α} {compare : α→α→ℤ} {items : List α}
    (hq : (qsort (qsortCompareWrapper compare) items).Perm items) (h : Batch list base 0) :
    Batch (sortedListInsertBatch qsort compare items list) list.brk items.length := by
  cases items with
  | nil =>
    refine ⟨?_,Nat.le_refl _,fun hz => absurd rfl hz,fun hz => absurd rfl hz,fun _ => h.empty rfl⟩
    intro a
    have hheap := h.heap a
    show (list.heap a).isSome ↔ list.brk≤a ∧ a<list.brk+0
    rw [hheap]
    omega
  | cons item items =>
    have hlen := hq.length_eq
    obtain ⟨first,rest,hsorted⟩ := List.exists_cons_of_ne_nil
      (l:=qsort (qsortCompareWrapper compare) (item::items)) fun hnil => by
        rw [hnil] at hlen
        cases hlen
    obtain ⟨hbrk,hblock⟩ := linkBatch_memory (qsort (qsortCompareWrapper compare) (item::items))
      (xmalloc (item::items).length list).2 none list.brk
    refine ⟨?_,?_,fun _ => ?_,fun _ => ⟨rfl,?_⟩,fun hz => absurd hz (Nat.succ_ne_zero _)⟩
    · intro a
      have hheap := linkBatch_isSome (qsort (qsortCompareWrapper compare) (item::items)) a
        (xmalloc (item::items).length list).2 none list.brk
      have hold := h.heap a
      rw [hlen] at hheap
      refine hheap.trans ⟨?_,.inl⟩
      rintro (hin|hout)
      · exact hin
      · have hin := hold.mp hout
        omega
    · exact Nat.le_of_eq hbrk.symm
    · show (linkBatch (xmalloc (item::items).length list).2 none list.brk
        (qsort (qsortCompareWrapper compare) (item::items))).rootNext=some list.brk
      rw [hsorted,linkBatch,linkBatch_root_some]
      rfl
    · show (linkBatch (xmalloc (item::items).length list).2 none list.brk
        (qsort (qsortCompareWrapper compare) (item::items))).blockLen list.brk=
          (item::items).length
      rw [hblock]
      exact Function.update_self ..

end Batches

/-- A pointer into the screen, before or after what it leads to was freed. -/
structure Holds (s : Display) (base : ℕ) (cells : List (ℕ×ℕ)) (c : Cursor) : Prop where
  /-- A node of the list that has not been cleared. -/
  node : ∀ p,c.node=some p → c.cleared=false → p∈cells.map Prod.fst
  /-- A node of an earlier list. -/
  gone : ∀ p,c.node=some p → c.cleared=true → p<base
  /-- A line that has not been freed. -/
  line : ∀ l,c.line=some l → c.freed=false → l∈s.lines
  /-- A line that is older than all there are. -/
  old : ∀ l,c.line=some l → c.freed=true → ∀ k∈s.lines,l<k
  /-- Lines were handed out. -/
  lt : ∀ l,c.line=some l → l<s.lineBrk
  /-- A line belongs to a node. -/
  both : c.line.isSome → c.node.isSome

/-- What holds in every interleaving, up to a fault. -/
structure Inv (s : Display) (base count : ℕ) (cells : List (ℕ×ℕ)) : Prop where
  /-- The heap is one batch. -/
  batch : Batch s.list base count
  /-- The list is in it. -/
  list : Represents s.list cells
  /-- The items of the list are lines. -/
  lines : ∀ c∈cells,c.2∈s.lines
  /-- Lines were handed out. -/
  lt : ∀ l∈s.lines,l<s.lineBrk
  /-- While the analysis runs the list is empty. -/
  phase : s.phase≠.idle → count=0
  /-- The drawing. -/
  drawer : ∀ c,s.drawer=some c → Holds s base cells c

variable {s s' : Display} {base count : ℕ} {cells : List (ℕ×ℕ)} {c : Cursor} {p : ℕ}

/-- A node of the list is in the heap. -/
theorem Inv.heap (h : Inv s base count cells) (hp : p∈cells.map Prod.fst) :
    ∃ n,s.list.heap p=some n ∧ n.data∈s.lines ∧
      ∀ p',n.next=some p' → p'∈cells.map Prod.fst := by
  obtain ⟨cell,hc,rfl⟩ := List.mem_map.mp hp
  obtain ⟨n,hn,hd⟩ := Option.map_eq_some_iff.mp (h.list.stored cell hc).data
  refine ⟨n,hn,hd ▸ h.lines cell hc,?_⟩
  intro p' hp'
  obtain ⟨xs,ys,hsplit⟩ := List.append_of_mem hp
  have hchain := h.list.chain
  rw [hsplit] at hchain
  have hrest := Chain.head?_eq (Chain.rest hchain)
  have hnext : s.list.next cell.1=some p' := by rw [SortedListType.next,hn]; exact hp'
  rw [hnext] at hrest
  rw [hsplit]
  exact List.mem_append_right _ (List.mem_cons_of_mem _ (List.mem_of_head? hrest))

/-- The node that the list begins with is one of its nodes. -/
theorem Inv.root (h : Inv s base count cells) (hp : s.list.rootNext=some p) :
    p∈cells.map Prod.fst := by
  have hhead := Chain.head?_eq h.list.chain
  rw [hp] at hhead
  exact List.mem_of_head? hhead

/-- A node of an earlier list is not in the heap. -/
theorem Inv.gone (h : Inv s base count cells) (hp : p<base) : s.list.heap p=none := by
  have hheap := h.batch.heap p
  cases hn : s.list.heap p with
  | none => rfl
  | some n =>
    rw [hn] at hheap
    exact absurd (hheap.mp rfl).1 (Nat.not_le.mpr hp)

/-- The list of a batch without nodes is empty. -/
theorem Inv.cells_nil (h : Inv s base count cells) (hc : count=0) : cells=[] := by
  have hroot := h.batch.empty hc
  have hhead := Chain.head?_eq h.list.chain
  rw [hroot] at hhead
  exact List.map_eq_nil_iff.mp (List.head?_eq_none_iff.mp hhead)

/-- Nothing is on the screen at the start. -/
theorem inv_init : Inv initDisplay 0 0 [] where
  batch := batch_initialise
  list := represents_initialise
  lines := fun _ hc => absurd hc List.not_mem_nil
  lt := fun _ hl => absurd hl List.not_mem_nil
  phase := fun _ => rfl
  drawer := fun _ hc => by cases hc

/-- The drawing goes on to a node of the list. -/
theorem Inv.advance (h : Inv s base count cells) {node : Option ℕ}
    (hn : ∀ p,node=some p → p∈cells.map Prod.fst) : Inv (s.advance node) base count cells where
  batch := h.batch
  list := h.list
  lines := h.lines
  lt := h.lt
  phase := h.phase
  drawer := by
    intro c hc
    obtain ⟨p,hp,rfl⟩ := Option.map_eq_some_iff.mp hc
    refine ⟨?_,?_,?_,?_,?_,?_⟩
    · intro p' hp' _
      exact hn p' (hp.trans hp')
    · exact fun _ _ hf => absurd hf Bool.false_ne_true
    · exact fun _ hl => by cases hl
    · exact fun _ hl => by cases hl
    · exact fun _ hl => by cases hl
    · exact fun hl => absurd hl Bool.false_ne_true

/-- The drawing looks at memory: at freed memory exactly through a stale pointer. -/
theorem Inv.read (h : Inv s base count cells) (hd : s.drawer=some c) {a : Action}
    (hr : DrawRace.read s c a=some s') :
    Stale c a ∧ s'=s.failed ∨ ¬Stale c a ∧ s'.fault=s.fault ∧ Inv s' base count cells := by
  have hc := h.drawer c hd
  cases a with
  | next =>
    cases hn : c.node with
    | none =>
      simp only [DrawRace.read,hn,Option.some.injEq] at hr
      rw [← hr]
      refine .inr ⟨fun hs => ?_,rfl,h.advance fun p hp => h.root hp⟩
      rw [Stale,hn] at hs
      exact Bool.false_ne_true hs.1
    | some p =>
      cases hcl : c.cleared with
      | true =>
        simp only [DrawRace.read,hn,h.gone (hc.gone p hn hcl),Option.some.injEq] at hr
        exact .inl ⟨⟨by rw [hn]; rfl,hcl⟩,hr.symm⟩
      | false =>
        obtain ⟨n,hheap,-,hnext⟩ := h.heap (hc.node p hn hcl)
        simp only [DrawRace.read,hn,hheap,Option.some.injEq] at hr
        rw [← hr]
        refine .inr ⟨fun hs => ?_,rfl,h.advance hnext⟩
        exact Bool.false_ne_true (hcl.symm.trans hs.2)
  | load =>
    cases hn : c.node with
    | none =>
      simp only [DrawRace.read,hn] at hr
      cases hr
    | some p =>
      cases hcl : c.cleared with
      | true =>
        simp only [DrawRace.read,hn,h.gone (hc.gone p hn hcl),Option.some.injEq] at hr
        exact .inl ⟨⟨by rw [hn]; rfl,hcl⟩,hr.symm⟩
      | false =>
        obtain ⟨n,hheap,hline,-⟩ := h.heap (hc.node p hn hcl)
        simp only [DrawRace.read,hn,hheap,Option.some.injEq] at hr
        rw [← hr]
        refine .inr ⟨fun hs => Bool.false_ne_true (hcl.symm.trans hs.2),rfl,?_⟩
        refine ⟨h.batch,h.list,h.lines,h.lt,h.phase,?_⟩
        intro c' hc'
        rw [← Option.some.inj hc']
        refine ⟨fun p' hp' => hc.node p' (hn.trans hp'),fun p' hp' => hc.gone p' (hn.trans hp'),
          ?_,?_,?_,fun _ => rfl⟩
        · intro l hl _
          rw [← Option.some.inj hl]
          exact hline
        · exact fun _ _ hf => absurd hf Bool.false_ne_true
        · intro l hl
          rw [← Option.some.inj hl]
          exact h.lt _ hline
  | look =>
    cases hl : c.line with
    | none =>
      simp only [DrawRace.read,hl] at hr
      cases hr
    | some l =>
      simp only [DrawRace.read,hl] at hr
      cases hf : c.freed with
      | true =>
        have hnot : l∉s.lines := fun hm => lt_irrefl l (hc.old l hl hf l hm)
        rw [if_neg hnot] at hr
        exact .inl ⟨⟨by rw [hl]; rfl,hf⟩,(Option.some.inj hr).symm⟩
      | false =>
        rw [if_pos (hc.line l hl hf)] at hr
        rw [← Option.some.inj hr]
        exact .inr ⟨fun hs => Bool.false_ne_true (hf.symm.trans hs.2),rfl,h⟩
  | finish =>
    simp only [DrawRace.read,Option.some.injEq] at hr
    rw [← hr]
    refine .inr ⟨fun hs => hs,rfl,h.batch,h.list,h.lines,h.lt,h.phase,?_⟩
    exact fun _ hc' => by cases hc'
  | draw => cases hr
  | clear => cases hr
  | free => cases hr
  | calloc => cases hr
  | publish => cases hr

section Analysis

variable {qsort : (ℕ→ℕ→ℤ)→List ℕ→List ℕ} {compare : ℕ→ℕ→ℤ}

/-- The invariant holds after the list is cleared. -/
theorem Inv.clear (h : Inv s base count cells) : Inv
    {s with
      list := sortedListDestroy s.list
      phase := .cleared
      drawer := s.drawer.map fun c => {c with cleared := true}} s.list.brk 0 [] where
  batch := h.batch.destroy.1
  list := sortedListDestroy_represents s.list
  lines := fun _ hc => absurd hc List.not_mem_nil
  lt := h.lt
  phase := fun _ => rfl
  drawer := by
    intro c' hc'
    obtain ⟨c,hd,rfl⟩ := Option.map_eq_some_iff.mp hc'
    have hc := h.drawer c hd
    refine ⟨fun _ _ hf => absurd hf.symm Bool.false_ne_true,?_,hc.line,hc.old,hc.lt,hc.both⟩
    intro p hp _
    have hbrk := h.batch.brk
    cases hcl : c.cleared with
    | true =>
      have hlt := hc.gone p hp hcl
      omega
    | false =>
      obtain ⟨cell,hm,rfl⟩ := List.mem_map.mp (hc.node p hp hcl)
      exact (h.list.stored cell hm).lt

/-- The invariant holds after the lines of a cleared list are freed. -/
theorem Inv.free (h : Inv s base count cells) (hp : s.phase=.cleared) : Inv
    {s with
      lines := []
      phase := .building
      drawer := s.drawer.map fun c => {c with freed := true}} base count cells where
  batch := h.batch
  list := h.list
  lines := by
    rw [h.cells_nil (h.phase (by rw [hp]; decide))]
    exact fun _ hc => absurd hc List.not_mem_nil
  lt := fun _ hl => absurd hl List.not_mem_nil
  phase := fun _ => h.phase (by rw [hp]; decide)
  drawer := by
    intro c' hc'
    obtain ⟨c,hd,rfl⟩ := Option.map_eq_some_iff.mp hc'
    have hc := h.drawer c hd
    refine ⟨hc.node,hc.gone,fun _ _ hf => absurd hf.symm Bool.false_ne_true,?_,hc.lt,hc.both⟩
    exact fun _ _ _ _ hk => absurd hk List.not_mem_nil

/-- The invariant holds after a line is allocated. -/
theorem Inv.calloc (h : Inv s base count cells) :
    Inv {s with lines := s.lineBrk::s.lines,lineBrk := s.lineBrk+1} base count cells where
  batch := h.batch
  list := h.list
  lines := fun c hc => List.mem_cons_of_mem _ (h.lines c hc)
  lt := List.forall_mem_cons.mpr ⟨Nat.lt_succ_self _,fun l hl => Nat.lt_succ_of_lt (h.lt l hl)⟩
  phase := h.phase
  drawer := by
    intro c hd
    have hc := h.drawer c hd
    refine ⟨hc.node,hc.gone,?_,?_,fun l hl => Nat.lt_succ_of_lt (hc.lt l hl),hc.both⟩
    · exact fun l hl hf => List.mem_cons_of_mem _ (hc.line l hl hf)
    · exact fun l hl hf => List.forall_mem_cons.mpr ⟨hc.lt l hl,hc.old l hl hf⟩

/-- The lines are sorted into the list. -/
theorem Inv.publish (hq : ∀ cmp items,(qsort cmp items).Perm items) (h : Inv s base count cells)
    (hp : s.phase=.building) : ∃ base' count' cells',Inv
      {s with list := sortedListInsertBatch qsort compare s.lines s.list,phase := .idle}
      base' count' cells' := by
  have hcount : count=0 := h.phase (by rw [hp]; decide)
  have hcells := h.cells_nil hcount
  obtain ⟨cells',hr,hd⟩ := sortedListInsertBatch_represents compare
    (hq (qsortCompareWrapper compare) s.lines) h.list
  have hbatch : Batch (sortedListInsertBatch qsort compare s.lines s.list) s.list.brk s.lines.length :=
    .insertBatch (hq (qsortCompareWrapper compare) s.lines) (hcount ▸ h.batch)
  refine ⟨s.list.brk,s.lines.length,cells',hbatch,hr,?_,h.lt,fun hno => absurd rfl hno,?_⟩
  · intro c hc
    have hmem : c.2∈cells'.map Prod.snd := List.mem_map_of_mem hc
    rw [hd,hcells] at hmem
    split at hmem
    · exact absurd hmem List.not_mem_nil
    · exact (hq _ _).mem_iff.mp hmem
  · intro c hdr
    have hc := h.drawer c hdr
    refine ⟨?_,?_,hc.line,hc.old,hc.lt,hc.both⟩
    · intro p hp' hf
      have hm := hc.node p hp' hf
      rw [hcells] at hm
      exact absurd hm List.not_mem_nil
    · intro p hp' hf
      have hlt := hc.gone p hp' hf
      have hbrk := h.batch.brk
      omega

/-- A step of the analysis keeps the invariant and makes no fault. -/
theorem Inv.analyse (hq : ∀ cmp items,(qsort cmp items).Perm items) (h : Inv s base count cells)
    {a : Action} (ha : DrawRace.analyse qsort compare s a=some s') :
    s'.fault=s.fault ∧ ∃ base' count' cells',Inv s' base' count' cells' := by
  cases a with
  | clear =>
    simp only [DrawRace.analyse] at ha
    split at ha
    · rw [← Option.some.inj ha]
      exact ⟨rfl,_,_,_,h.clear⟩
    · cases ha
  | free =>
    simp only [DrawRace.analyse] at ha
    split at ha
    · rename_i hp
      rw [← Option.some.inj ha]
      exact ⟨rfl,_,_,_,h.free hp⟩
    · cases ha
  | calloc =>
    simp only [DrawRace.analyse] at ha
    split at ha
    · rw [← Option.some.inj ha]
      exact ⟨rfl,_,_,_,h.calloc⟩
    · cases ha
  | publish =>
    simp only [DrawRace.analyse] at ha
    split at ha
    · rename_i hp
      rw [← Option.some.inj ha]
      exact ⟨rfl,h.publish hq hp⟩
    · cases ha
  | draw => cases ha
  | next => cases ha
  | load => cases ha
  | look => cases ha
  | finish => cases ha

/-- An action is a beginning, a read or a step of the analysis. -/
theorem next_cases {a : Action} (hn : DrawRace.next qsort compare s a=some s') : s.fault=false ∧
    (a=.draw ∧ s'={s with drawer := some ⟨none,none,false,false⟩} ∨
      (∃ c,s.drawer=some c ∧ DrawRace.read s c a=some s') ∨
      DrawRace.analyse qsort compare s a=some s') := by
  unfold DrawRace.next at hn
  split at hn
  · cases hn
  · rename_i hf
    refine ⟨Bool.eq_false_iff.mpr hf,?_⟩
    split at hn
    · split at hn
      · exact .inl ⟨rfl,(Option.some.inj hn).symm⟩
      · cases hn
    · rcases Option.or_eq_some_iff.mp hn with hr|⟨-,ha⟩
      · exact .inr (.inl (Option.bind_eq_some_iff.mp hr))
      · exact .inr (.inr ha)

/-- The analysis reads through no pointer of the drawing. -/
theorem not_stale {a : Action} (ha : DrawRace.analyse qsort compare s a=some s') :
    ¬Stale c a := by
  cases a with
  | next => cases ha
  | load => cases ha
  | look => cases ha
  | finish => cases ha
  | draw => exact fun hs => hs
  | clear => exact fun hs => hs
  | free => exact fun hs => hs
  | calloc => exact fun hs => hs
  | publish => exact fun hs => hs

/-- The invariant holds after a drawing begins. -/
theorem Inv.draw (h : Inv s base count cells) :
    Inv {s with drawer := some ⟨none,none,false,false⟩} base count cells := by
  refine ⟨h.batch,h.list,h.lines,h.lt,h.phase,?_⟩
  intro c hc
  rw [← Option.some.inj hc]
  refine ⟨?_,?_,?_,?_,?_,fun hl => absurd hl Bool.false_ne_true⟩
  · exact fun _ hp => by cases hp
  · exact fun _ hp => by cases hp
  · exact fun _ hl => by cases hl
  · exact fun _ hl => by cases hl
  · exact fun _ hl => by cases hl

/-- What an action does, and that it faults exactly at a stale pointer. -/
theorem Inv.next (hq : ∀ cmp items,(qsort cmp items).Perm items) (h : Inv s base count cells)
    {a : Action} (hn : DrawRace.next qsort compare s a=some s') :
    (s'.fault=true ↔ ∃ c,s.drawer=some c ∧ Stale c a) ∧
      (s'.fault=false → ∃ base' count' cells',Inv s' base' count' cells') := by
  obtain ⟨hf,hcases⟩ := next_cases hn
  rcases hcases with ⟨rfl,rfl⟩|⟨c,hd,hr⟩|ha
  · refine ⟨⟨fun hyes => absurd (hf.symm.trans hyes) Bool.false_ne_true,fun ⟨c,_,hs⟩ => hs.elim⟩,?_⟩
    exact fun _ => ⟨_,_,_,h.draw⟩
  · rcases h.read hd hr with ⟨hs,rfl⟩|⟨hs,hfault,hinv⟩
    · exact ⟨⟨fun _ => ⟨c,hd,hs⟩,fun _ => rfl⟩,fun hno => absurd hno.symm Bool.false_ne_true⟩
    · refine ⟨⟨fun hyes => ?_,?_⟩,fun _ => ⟨_,_,_,hinv⟩⟩
      · exact absurd ((hfault.trans hf).symm.trans hyes) Bool.false_ne_true
      · rintro ⟨c',hd',hs'⟩
        rw [hd] at hd'
        exact absurd (Option.some.inj hd' ▸ hs') hs
  · obtain ⟨hfault,hinv⟩ := h.analyse hq ha
    refine ⟨⟨fun hyes => ?_,fun ⟨c,_,hs⟩ => absurd hs (not_stale ha)⟩,fun _ => hinv⟩
    exact absurd ((hfault.trans hf).symm.trans hyes) Bool.false_ne_true

/-- A drawing that is not overtaken. -/
structure Undisturbed (s : Display) : Prop where
  /-- The list has not been cleared since the drawing read its node. -/
  cleared : ∀ c,s.drawer=some c → c.node.isSome → c.cleared=false
  /-- The lines have not been freed since it read its line. -/
  freed : ∀ c,s.drawer=some c → c.line.isSome → c.freed=false

/-- A screen that is not drawn is undisturbed. -/
theorem undisturbed_none (h : s.drawer=none) : Undisturbed s := by
  constructor
  · intro c hc
    rw [h] at hc
    cases hc
  · intro c hc
    rw [h] at hc
    cases hc

/-- A step of the drawing frees nothing, so the drawing stays undisturbed. -/
theorem Undisturbed.read (hu : Undisturbed s) (hd : s.drawer=some c) {a : Action}
    (hr : DrawRace.read s c a=some s') : Undisturbed s' := by
  have hadvance (node : Option ℕ) : Undisturbed (s.advance node) := by
    constructor
    · intro c' hc' _
      obtain ⟨p,-,rfl⟩ := Option.map_eq_some_iff.mp hc'
      rfl
    · intro c' hc' _
      obtain ⟨p,-,rfl⟩ := Option.map_eq_some_iff.mp hc'
      rfl
  have hfailed : Undisturbed s.failed := ⟨hu.cleared,hu.freed⟩
  unfold DrawRace.read at hr
  split at hr
  · split at hr
    · rw [← Option.some.inj hr]
      exact hadvance _
    · split at hr
      · rw [← Option.some.inj hr]
        exact hfailed
      · rw [← Option.some.inj hr]
        exact hadvance _
  · split at hr
    · cases hr
    · rename_i hnode
      split at hr
      · rw [← Option.some.inj hr]
        exact hfailed
      · rw [← Option.some.inj hr]
        constructor
        · intro c' hc' _
          rw [← Option.some.inj hc']
          exact hu.cleared c hd (by rw [hnode]; rfl)
        · intro c' hc' _
          rw [← Option.some.inj hc']
  · split at hr
    · cases hr
    · split at hr
      · rw [← Option.some.inj hr]
        exact hu
      · rw [← Option.some.inj hr]
        exact hfailed
  · rw [← Option.some.inj hr]
    exact undisturbed_none rfl
  · cases hr

/-- A node that is held is in the list, which is not being built then. -/
theorem Undisturbed.idle (hu : Undisturbed s) (h : Inv s base count cells) (hd : s.drawer=some c)
    (hn : c.node.isSome) : s.phase=.idle := by
  by_contra hp
  obtain ⟨p,hp'⟩ := Option.isSome_iff_exists.mp hn
  have hmem := (h.drawer c hd).node p hp' (hu.cleared c hd hn)
  rw [h.cells_nil (h.phase hp)] at hmem
  exact List.not_mem_nil hmem

/-- Nothing overtakes a drawing as long as the list is cleared between drawings only. -/
theorem Undisturbed.next (hu : Undisturbed s) (h : Inv s base count cells) {a : Action}
    (ha : Apart s a) (hn : DrawRace.next qsort compare s a=some s') : Undisturbed s' := by
  obtain ⟨-,hcases⟩ := next_cases hn
  rcases hcases with ⟨rfl,rfl⟩|⟨c,hd,hr⟩|hr
  · constructor
    · intro c hc _
      rw [← Option.some.inj hc]
    · intro c hc _
      rw [← Option.some.inj hc]
  · exact hu.read hd hr
  · unfold DrawRace.analyse at hr
    split at hr
    · split at hr
      · have hnone : s.drawer=none := ha
        rw [← Option.some.inj hr,hnone]
        exact undisturbed_none rfl
      · cases hr
    · split at hr
      · rename_i hp
        rw [← Option.some.inj hr]
        constructor
        · intro c' hc' hn'
          obtain ⟨c,hd,rfl⟩ := Option.map_eq_some_iff.mp hc'
          exact hu.cleared c hd hn'
        · intro c' hc' hl'
          obtain ⟨c,hd,rfl⟩ := Option.map_eq_some_iff.mp hc'
          have hidle := hu.idle h hd ((h.drawer c hd).both hl')
          rw [hp] at hidle
          cases hidle
      · cases hr
    · split at hr
      · rw [← Option.some.inj hr]
        exact ⟨hu.cleared,hu.freed⟩
      · cases hr
    · split at hr
      · rw [← Option.some.inj hr]
        exact ⟨hu.cleared,hu.freed⟩
      · cases hr
    · cases hr

/-- Every state before a fault keeps the invariant. -/
theorem inv_of_run {guard : Display→Action→Prop}
    (hq : ∀ cmp items,(qsort cmp items).Perm items)
    (h : Run (DrawRace.next qsort compare) guard initDisplay s) (hf : s.fault=false) :
    ∃ base count cells,Inv s base count cells := by
  have hstep : ∀ (s : Display) a s',(s.fault=false → ∃ base count cells,Inv s base count cells) →
      guard s a → DrawRace.next qsort compare s a=some s' →
      s'.fault=false → ∃ base count cells,Inv s' base count cells := by
    intro s₁ a s₂ hs _ hn hf₂
    obtain ⟨base,count,cells,hinv⟩ := hs (next_cases hn).1
    exact (hinv.next hq hn).2 hf₂
  refine h.invariant ?_ hstep hf
  exact fun _ => ⟨0,0,[],inv_init⟩

/-- As long as the list is cleared between drawings only, no freed memory is read. In every other
interleaving, too, freed memory is read exactly by the steps of a drawing that go on from a node
when the list has been cleared since, or look at a line when the lines have been freed since. -/
theorem unlocked_draw (hq : ∀ cmp items,(qsort cmp items).Perm items) :
    (∀ s,Run (DrawRace.next qsort compare) Apart initDisplay s → s.fault=false) ∧
    ∀ s a s',Reaches (DrawRace.next qsort compare) initDisplay s →
      DrawRace.next qsort compare s a=some s' →
        (s'.fault=true ↔ ∃ c,s.drawer=some c ∧ Stale c a) := by
  constructor
  · intro s h
    have hall : s.fault=false ∧ Undisturbed s := by
      induction h with
      | init => exact ⟨rfl,undisturbed_none rfl⟩
      | @step s₁ s₂ a hrun ha hn ih =>
        obtain ⟨base,count,cells,hinv⟩ := inv_of_run hq hrun ih.1
        refine ⟨?_,ih.2.next hinv ha hn⟩
        refine Bool.eq_false_iff.mpr fun hyes => ?_
        obtain ⟨c,hd,hs⟩ := (hinv.next hq hn).1.mp hyes
        cases a with
        | next => exact absurd (hs.2.symm.trans (ih.2.cleared c hd hs.1)).symm Bool.false_ne_true
        | load => exact absurd (hs.2.symm.trans (ih.2.cleared c hd hs.1)).symm Bool.false_ne_true
        | look => exact absurd (hs.2.symm.trans (ih.2.freed c hd hs.1)).symm Bool.false_ne_true
        | draw => exact hs.elim
        | finish => exact hs.elim
        | clear => exact hs.elim
        | free => exact hs.elim
        | calloc => exact hs.elim
        | publish => exact hs.elim
    exact hall.1
  · intro s a s' h hn
    obtain ⟨base,count,cells,hinv⟩ := inv_of_run hq h (next_cases hn).1
    exact (hinv.next hq hn).1

end Analysis

/-- A list is built and drawn; it is cleared while the drawing is at its node. -/
def overtaken : List Action := [.clear,.free,.calloc,.publish,.draw,.next,.load,.clear]

/-- A drawing that goes on after its list was cleared reads freed memory. -/
theorem unlocked_draw_overtaken :
    ∃ s s',Reaches (DrawRace.next (fun _ items => items) fun _ _ => 0) initDisplay s ∧
      DrawRace.next (fun _ items => items) (fun _ _ => 0) s .next=some s' ∧
      (s'.fault=true ↔ ∃ c,s.drawer=some c ∧ Stale c .next) ∧ s'.fault=true := by
  have hs : overtaken.foldlM (DrawRace.next (fun _ items => items) fun _ _ => 0) initDisplay=
      some _ := rfl
  have hrun := Reaches.of_foldlM hs
  have hiff := (@unlocked_draw (fun _ items => items) (fun _ _ => 0)
    fun _ items => .refl items).2 _ .next _ hrun rfl
  exact ⟨_,_,hrun,rfl,hiff,hiff.mpr ⟨_,rfl,rfl,rfl⟩⟩

end IftopColor.DrawRace
