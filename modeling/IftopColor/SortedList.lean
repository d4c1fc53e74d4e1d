import IftopColor.LinkedCells
import IftopColor.StableInsertion
import Mathlib.Data.List.Induction

/-!
# The sorted list

`sorted_list.c` keeps items in a linked list behind a root node. Single items get
a node each, found by a walk that stops at the first item the new one does not
go after; a batch is sorted by `qsort`, gets all its nodes in one heap block and
is linked from the root on. Nodes live in a heap that is given explicitly, with
the blocks that were handed out, so that freeing a block takes its nodes away.
The content of the list is what an iteration with `sorted_list_next_item` finds.
-/

namespace IftopColor.SortedList

open LinkedCells StableInsertion

variable {α : Type}

/-- `sorted_list_node`. -/
structure ListNode (α : Type) where
  /-- Address of the next node. -/
  next : Option ℕ
  /-- The item. -/
  data : α

/-- `sorted_list_type`, and the heap with its nodes. -/
structure SortedListType (α : Type) where
  /-- `root.next`. -/
  rootNext : Option ℕ
  /-- `batch_allocated`. -/
  batchAllocated : Bool
  /-- The nodes in allocated memory. -/
  heap : ℕ→Option (ListNode α)
  /-- Number of nodes in the block that starts at an address. -/
  blockLen : ℕ→ℕ
  /-- Nodes from here on were never handed out. -/
  brk : ℕ

/-- `sorted_list_initialise`, with an empty heap. -/
def sortedListInitialise : SortedListType α := ⟨none,false,fun _ => none,fun _ => 0,0⟩

/-- The link of a node. -/
def SortedListType.next (list : SortedListType α) (node : ℕ) : Option ℕ :=
  (list.heap node).bind ListNode.next

/-- `xmalloc` of a number of nodes. -/
def xmalloc (count : ℕ) (list : SortedListType α) : ℕ×SortedListType α :=
  (list.brk,{list with
    blockLen := Function.update list.blockLen list.brk count
    brk := list.brk+count})

/-- `free` of a block. -/
def free (block : ℕ) (list : SortedListType α) : SortedListType α :=
  {list with heap := fun a =>
    if block≤a ∧ a<block+list.blockLen block then none else list.heap a}

/-- `prev->next = node`, where no node stands for the root. -/
def setNext (prev node : Option ℕ) (list : SortedListType α) : SortedListType α :=
  match prev with
  | none => {list with rootNext := node}
  | some p => {list with
      heap := Function.update list.heap p ((list.heap p).map fun n => {n with next := node})}

/-- Fill a node and link it behind another. -/
def linkNode (prev : Option ℕ) (node : ℕ) (data : α) (next : Option ℕ)
    (list : SortedListType α) : SortedListType α :=
  setNext prev (some node) {list with heap := Function.update list.heap node (some ⟨next,data⟩)}

/-- An item goes after another in the order of a comparison. -/
def goesAfter (compare : α→α→ℤ) (a b : α) : Bool := decide (compare a b>0)

/-- The walk of `sorted_list_insert` stops in front of this node. -/
def stopsAt (compare : α→α→ℤ) (data : α) (list : SortedListType α) (node : ℕ) : Bool :=
  match list.heap node with
  | none => true
  | some n => !goesAfter compare data n.data

/-- `sorted_list_insert`. -/
def sortedListInsert (compare : α→α→ℤ) (data : α) (list : SortedListType α) : SortedListType α :=
  let (prev,next) := search list.next (stopsAt compare data list) list.brk none list.rootNext
  let (node,list) := xmalloc 1 list
  linkNode prev node data next list

/-- `qsort_compare_wrapper`. -/
def qsortCompareWrapper (compare : α→α→ℤ) (left right : α) : ℤ :=
  if compare left right≠0 then 1 else -1

/-- The loop of `sorted_list_insert_batch`. -/
def linkBatch (list : SortedListType α) (prev : Option ℕ) (node : ℕ) : List α→SortedListType α
  | [] => list
  | item::items => linkBatch (linkNode prev node item none list) (some node) (node+1) items

/-- `sorted_list_insert_batch`. -/
def sortedListInsertBatch (qsort : (α→α→ℤ)→List α→List α) (compare : α→α→ℤ) (items : List α)
    (list : SortedListType α) : SortedListType α :=
  match items with
  | [] => list
  | _::_ =>
    let sorted := qsort (qsortCompareWrapper compare) items
    let (nodes,list) := xmalloc items.length list
    {linkBatch list none nodes sorted with batchAllocated := true}

/-- `sorted_list_next_item`. -/
def sortedListNextItem (list : SortedListType α) (prev : Option ℕ) : Option ℕ :=
  match prev with
  | none => list.rootNext
  | some node => list.next node

/-- The loop of `sorted_list_destroy` over single nodes, at most `fuel` of them. -/
def freeNodes (list : SortedListType α) : ℕ→Option ℕ→SortedListType α
  | 0,_ => list
  | _+1,none => list
  | fuel+1,some node => freeNodes (free node list) fuel (list.next node)

/-- `sorted_list_destroy`. -/
def sortedListDestroy (list : SortedListType α) : SortedListType α :=
  match list.rootNext with
  | none => list
  | some node =>
    let list := if list.batchAllocated then free node list
      else freeNodes list list.brk (some node)
    {list with rootNext := none,batchAllocated := false}

/-- Nodes met by an iteration with `sorted_list_next_item`. -/
def iterate (list : SortedListType α) : List ℕ :=
  walk (fun node => sortedListNextItem list (some node)) list.brk (sortedListNextItem list none)

/-- Items found by an iteration. -/
def contents (list : SortedListType α) : List α :=
  (iterate list).filterMap fun node => (list.heap node).map ListNode.data

variable {list : SortedListType α} {cells xs ys zs : List (ℕ×α)}

/-- A node of allocated memory with its item. -/
structure Stored (list : SortedListType α) (cell : ℕ×α) : Prop where
  /-- The node holds the item. -/
  data : (list.heap cell.1).map ListNode.data=some cell.2
  /-- The node was handed out. -/
  lt : cell.1<list.brk

/-- The list consists of these nodes with these items. -/
structure Represents (list : SortedListType α) (cells : List (ℕ×α)) : Prop where
  /-- The links lead from node to node. -/
  chain : Chain list.next list.rootNext (cells.map Prod.fst)
  /-- Every node holds its item. -/
  stored : ∀ c∈cells,Stored list c

/-- The list at the start represents no items. -/
theorem represents_initialise : Represents (sortedListInitialise : SortedListType α) [] :=
  ⟨rfl,by simp⟩

/-- A list has no more nodes than were handed out. -/
theorem Represents.length_le (h : Represents list cells) :
    (cells.map Prod.fst).length≤list.brk := by
  have hsub : cells.map Prod.fst ⊆ List.range list.brk := by
    intro a ha
    obtain ⟨c,hc,rfl⟩ := List.mem_map.mp ha
    exact List.mem_range.mpr (h.stored c hc).lt
  have hle := (List.subperm_of_subset (Chain.nodup h.chain) hsub).length_le
  rwa [List.length_range] at hle

/-- An iteration finds the items of the list, in order. -/
theorem Represents.contents_eq (h : Represents list cells) :
    contents list=cells.map Prod.snd := by
  have hiter : iterate list=cells.map Prod.fst := walk_eq h.chain h.length_le
  rw [contents,hiter,List.filterMap_map]
  rw [←List.filterMap_eq_map]
  apply List.filterMap_congr
  intro c hc
  exact (h.stored c hc).data

/-- The links after one link was changed. -/
theorem next_setNext (prev node : Option ℕ) (list : SortedListType α)
    (hp : ∀ p,prev=some p→(list.heap p).isSome) :
    (setNext prev node list).rootNext=(relink prev node list.rootNext list.next).1 ∧
      (setNext prev node list).next=(relink prev node list.rootNext list.next).2 := by
  cases prev with
  | none => exact ⟨rfl,rfl⟩
  | some p =>
    refine ⟨rfl,funext fun a => ?_⟩
    obtain ⟨n,hn⟩ := Option.isSome_iff_exists.mp (hp p rfl)
    simp only [setNext,relink,SortedListType.next]
    by_cases ha : a=p
    · subst ha
      simp [hn]
    · rw [Function.update_of_ne ha,Function.update_of_ne ha]
      rfl

/-- A changed link leaves the items alone. -/
theorem data_setNext (prev node : Option ℕ) (list : SortedListType α) (a : ℕ) :
    ((setNext prev node list).heap a).map ListNode.data=(list.heap a).map ListNode.data := by
  cases prev with
  | none => rfl
  | some p =>
    simp only [setNext]
    by_cases ha : a=p
    · subst ha
      rw [Function.update_self,Option.map_map]
      rfl
    · rw [Function.update_of_ne ha]

/-- No memory is handed out by changing a link. -/
theorem brk_setNext (prev node : Option ℕ) (list : SortedListType α) :
    (setNext prev node list).brk=list.brk := by
  cases prev <;> rfl

/-- Linking a node keeps the other nodes. -/
theorem linkNode_stored {prev next : Option ℕ} {node : ℕ} {data : α} {cell : ℕ×α}
    (h : Stored list cell) (hne : cell.1≠node) :
    Stored (linkNode prev node data next list) cell := by
  refine ⟨?_,?_⟩
  · rw [linkNode,data_setNext]
    dsimp only
    rw [Function.update_of_ne hne]
    exact h.data
  · rw [linkNode,brk_setNext]
    exact h.lt

/-- The node that is linked in holds its item. -/
theorem linkNode_stored_self {prev next : Option ℕ} {node : ℕ} {data : α} (h : node<list.brk) :
    Stored (linkNode prev node data next list) (node,data) := by
  refine ⟨?_,?_⟩
  · rw [linkNode,data_setNext]
    dsimp only
    rw [Function.update_self]
    rfl
  · rw [linkNode,brk_setNext]
    exact h

/-- Write a node. -/
def fillNode (node : ℕ) (data : α) (next : Option ℕ) (list : SortedListType α) :
    SortedListType α :=
  {list with heap := Function.update list.heap node (some ⟨next,data⟩)}

/-- The link of the node that was written. -/
theorem next_fillNode_self (node : ℕ) (data : α) (next : Option ℕ) (list : SortedListType α) :
    (fillNode node data next list).next node=next := by
  simp only [SortedListType.next,fillNode,Function.update_self]
  rfl

/-- A chain that does not meet the node is still there. -/
theorem fillNode_chain {node : ℕ} {data : α} {next start : Option ℕ} {cells : List ℕ}
    (h : Chain list.next start cells) (hn : node∉cells) :
    Chain (fillNode node data next list).next start cells := by
  refine Seg.congr h fun a ha => ?_
  have hne : a≠node := fun he => hn (he ▸ ha)
  simp only [SortedListType.next,fillNode,Function.update_of_ne hne]

/-- A node that is not in the list differs from the nodes of the list. -/
theorem ne_of_new {node : ℕ} (hnode : node∉cells.map Prod.fst) : ∀ c∈cells,c.1≠node := by
  rintro c hc rfl
  exact hnode (List.mem_map_of_mem hc)

/-- Linking a new node behind `xs` links these, the node and the cells it is linked to. -/
theorem linkNode_chain {node : ℕ} {data : α} {next : Option ℕ} (h : Represents list (xs++ys))
    (hzs : zs ⊆ ys) (hnext : Chain list.next next (zs.map Prod.fst))
    (hnode : node∉(xs++ys).map Prod.fst) :
    Chain (linkNode (xs.map Prod.fst).getLast? node data next list).next
      (linkNode (xs.map Prod.fst).getLast? node data next list).rootNext
      ((xs++(node,data)::zs).map Prod.fst) := by
  have hne := ne_of_new hnode
  -- the list with the new node written, before it is linked
  have hold : Chain (fillNode node data next list).next list.rootNext
      (xs.map Prod.fst++ys.map Prod.fst) := by
    rw [←List.map_append]
    exact fillNode_chain h.chain hnode
  have hnew : Chain (fillNode node data next list).next (some node)
      (((node,data)::zs).map Prod.fst) := by
    refine ⟨rfl,?_⟩
    rw [next_fillNode_self]
    refine fillNode_chain hnext fun hz => ?_
    obtain ⟨c,hc,he⟩ := List.mem_map.mp hz
    exact hne c (List.mem_append_right _ (hzs hc)) he
  have hlast : ∀ p,(xs.map Prod.fst).getLast?=some p→∃ c∈xs,c.1=p := by
    intro p hp
    obtain ⟨c,hc,hcp⟩ := List.mem_map.mp (List.mem_of_getLast? hp)
    exact ⟨c,hc,hcp⟩
  have hsome : ∀ p,(xs.map Prod.fst).getLast?=some p→
      ((fillNode node data next list).heap p).isSome := by
    intro p hp
    obtain ⟨c,hc,rfl⟩ := hlast p hp
    have hd := (h.stored c (List.mem_append_left _ hc)).data
    have hheap : (fillNode node data next list).heap c.1=list.heap c.1 :=
      Function.update_of_ne (hne c (List.mem_append_left _ hc)) _ _
    rw [hheap,←Option.isSome_map,hd]
    rfl
  obtain ⟨hroot,hnexts⟩ := next_setNext (xs.map Prod.fst).getLast? (some node)
    (fillNode node data next list) hsome
  rw [List.map_append]
  simp only [linkNode,fillNode] at hroot hnexts hold hnew ⊢
  rw [hroot,hnexts]
  refine relink_chain hold hnew fun p hp hz => ?_
  obtain ⟨c,hc,rfl⟩ := hlast p hp
  rcases List.mem_cons.mp hz with he|hz
  · exact hne c (List.mem_append_left _ hc) he
  · have hd := Chain.nodup h.chain
    rw [List.map_append] at hd
    have hy : c.1∈ys.map Prod.fst := List.map_subset _ hzs hz
    exact (List.nodup_append.mp hd).2.2 _ (List.mem_map_of_mem hc) _ hy rfl

/-- Linking a new node behind `xs` keeps these and lets the rest of the list follow
the new node. -/
theorem linkNode_represents {node : ℕ} {data : α} {next : Option ℕ} (h : Represents list (xs++ys))
    (hzs : zs ⊆ ys) (hnext : Chain list.next next (zs.map Prod.fst))
    (hnode : node∉(xs++ys).map Prod.fst) (hlt : node<list.brk) :
    Represents (linkNode (xs.map Prod.fst).getLast? node data next list)
      (xs++(node,data)::zs) := by
  have hkept : ∀ c∈xs++ys,Stored (linkNode (xs.map Prod.fst).getLast? node data next list) c :=
    fun c hc => linkNode_stored (h.stored c hc) (ne_of_new hnode c hc)
  refine ⟨linkNode_chain h hzs hnext hnode,fun c hc => ?_⟩
  rcases List.mem_append.mp hc with hc|hc
  · exact hkept c (List.mem_append_left _ hc)
  · rcases List.mem_cons.mp hc with rfl|hc
    · exact linkNode_stored_self hlt
    · exact hkept c (List.mem_append_right _ (hzs hc))

/-- Handing out memory does not touch the list. -/
theorem xmalloc_represents (h : Represents list cells) (count : ℕ) :
    Represents (xmalloc count list).2 cells ∧ ∀ i,list.brk+i∉cells.map Prod.fst := by
  refine ⟨⟨h.chain,fun c hc => ⟨(h.stored c hc).data,?_⟩⟩,fun i hi => ?_⟩
  · exact Nat.lt_add_right count (h.stored c hc).lt
  · obtain ⟨c,hc,he⟩ := List.mem_map.mp hi
    have := (h.stored c hc).lt
    omega

/-- A single insertion places the item behind the items it goes after. -/
theorem sortedListInsert_represents (compare : α→α→ℤ) (data : α) (h : Represents list cells) :
    ∃ cells',Represents (sortedListInsert compare data list) cells' ∧
      cells'.map Prod.snd=place (goesAfter compare) data (cells.map Prod.snd) := by
  -- where the walk splits the list
  let after : ℕ×α→Bool := fun c => goesAfter compare data c.2
  have hsplit : cells=cells.takeWhile after++cells.dropWhile after :=
    (List.takeWhile_append_dropWhile ..).symm
  have hstop : ∀ c∈cells,stopsAt compare data list c.1=!after c := by
    intro c hc
    have hd := (h.stored c hc).data
    obtain ⟨n,hn,hn'⟩ := Option.map_eq_some_iff.mp hd
    simp only [stopsAt,hn,hn',after]
  have hchain : Chain list.next list.rootNext
      ((cells.takeWhile after).map Prod.fst++(cells.dropWhile after).map Prod.fst) := by
    rw [←List.map_append,←hsplit]
    exact h.chain
  have hsearch : search list.next (stopsAt compare data list) list.brk none list.rootNext=
      (((cells.takeWhile after).map Prod.fst).getLast?,
        ((cells.dropWhile after).map Prod.fst).head?) := by
    rw [search_eq hchain,Option.or_none]
    · intro x hx
      obtain ⟨c,hc,rfl⟩ := List.mem_map.mp hx
      rw [hstop c (List.takeWhile_subset _ hc),List.mem_takeWhile_imp hc]
      rfl
    · intro y hy
      rw [List.head?_map,Option.map_eq_some_iff] at hy
      obtain ⟨c,hc,rfl⟩ := hy
      have hnot := List.head?_dropWhile_not after cells
      rw [hc] at hnot
      rw [hstop c (List.dropWhile_subset _ (List.mem_of_head? hc)),hnot]
      rfl
    · rw [←List.map_append,←hsplit]
      exact h.length_le
  obtain ⟨hm,hfresh⟩ := xmalloc_represents h 1
  refine ⟨cells.takeWhile after++(list.brk,data)::cells.dropWhile after,?_,?_⟩
  · simp only [sortedListInsert,hsearch]
    rw [hsplit] at hm
    refine linkNode_represents hm (List.Subset.refl _) ?_ ?_ (Nat.lt_succ_self _)
    · obtain ⟨mid,-,hrest⟩ := seg_append.mp hchain
      have hmid := Chain.head?_eq hrest
      rw [hmid]
      exact hrest
    · rw [←hsplit]
      exact hfresh 0
  · simp only [place,List.map_append,List.map_cons,List.takeWhile_map,List.dropWhile_map]
    rfl

/-- Insert items one by one into an empty list. -/
def insertAll (compare : α→α→ℤ) (items : List α) : SortedListType α :=
  items.foldl (fun list item => sortedListInsert compare item list) sortedListInitialise

/-- Items inserted one by one are placed one by one. -/
theorem insertAll_contents (compare : α→α→ℤ) (items : List α) :
    contents (insertAll compare items)=placeAll (goesAfter compare) items [] := by
  have hrun : ∀ (list : SortedListType α) (cells : List (ℕ×α)),Represents list cells→
      ∃ cells',Represents (items.foldl (fun list item => sortedListInsert compare item list) list)
          cells' ∧
        cells'.map Prod.snd=placeAll (goesAfter compare) items (cells.map Prod.snd) := by
    induction items with
    | nil => exact fun list cells h => ⟨cells,h,rfl⟩
    | cons item items ih =>
      intro list cells h
      obtain ⟨cells₁,h₁,hd₁⟩ := sortedListInsert_represents compare item h
      obtain ⟨cells',h',hd'⟩ := ih _ cells₁ h₁
      refine ⟨cells',h',?_⟩
      rw [hd',hd₁]
      rfl
  obtain ⟨cells',h',hd'⟩ := hrun _ [] represents_initialise
  rw [insertAll,h'.contents_eq,hd']
  rfl

/-- The loop over a batch links its nodes behind the ones linked before. -/
theorem linkBatch_represents (items : List α) :
    ∀ (node : ℕ) (xs ys : List (ℕ×α)) (list : SortedListType α),Represents list (xs++ys)→
      (∀ i,node+i∉(xs++ys).map Prod.fst)→node+items.length≤list.brk→(items=[]→ys=[])→
      ∃ cells',Represents (linkBatch list (xs.map Prod.fst).getLast? node items) cells' ∧
        cells'.map Prod.snd=xs.map Prod.snd++items := by
  induction items with
  | nil =>
    intro node xs ys list h _ _ hy
    obtain rfl := hy rfl
    exact ⟨xs++[],h,by simp⟩
  | cons item items ih =>
    intro node xs ys list h hfresh hle _
    have hlt : node<list.brk := by
      rw [List.length_cons] at hle
      omega
    have hlink : Represents (linkNode (xs.map Prod.fst).getLast? node item none list)
        (xs++[(node,item)]) :=
      linkNode_represents h (List.nil_subset _) rfl (hfresh 0) hlt
    have hlast : ((xs++[(node,item)]).map Prod.fst).getLast?=some node := by simp
    have hbrk : (linkNode (xs.map Prod.fst).getLast? node item none list).brk=list.brk :=
      brk_setNext ..
    have hfresh' : ∀ i,node+1+i∉((xs++[(node,item)])++[]).map Prod.fst := by
      intro i hi
      rw [List.append_nil,List.map_append,List.mem_append] at hi
      rcases hi with hi|hi
      · have hnot := hfresh (1+i)
        rw [←Nat.add_assoc,List.map_append,List.mem_append] at hnot
        exact hnot (.inl hi)
      · have he : node+1+i=node := by simpa using hi
        omega
    have hle' : node+1+items.length≤
        (linkNode (xs.map Prod.fst).getLast? node item none list).brk := by
      rw [hbrk]
      rw [List.length_cons] at hle
      omega
    obtain ⟨cells',hr,hd⟩ := ih (node+1) (xs++[(node,item)]) [] _
      (by rw [List.append_nil]; exact hlink) hfresh' hle' (fun _ => rfl)
    refine ⟨cells',?_,?_⟩
    · rw [hlast] at hr
      exact hr
    · rw [hd]
      simp

/-- A batch replaces the list by the sorted batch. -/
theorem sortedListInsertBatch_represents {qsort : (α→α→ℤ)→List α→List α} (compare : α→α→ℤ)
    {items : List α} (hq : (qsort (qsortCompareWrapper compare) items).Perm items)
    (h : Represents list cells) :
    ∃ cells',Represents (sortedListInsertBatch qsort compare items list) cells' ∧
      cells'.map Prod.snd=
        if items=[] then cells.map Prod.snd else qsort (qsortCompareWrapper compare) items := by
  cases items with
  | nil => exact ⟨cells,h,by simp⟩
  | cons item items =>
    obtain ⟨hm,hfresh⟩ := xmalloc_represents h (item::items).length
    have hsorted : qsort (qsortCompareWrapper compare) (item::items)≠[] :=
      fun hnil => List.cons_ne_nil _ _ (hq.symm.trans (.of_eq hnil)).eq_nil
    have hle : list.brk+(qsort (qsortCompareWrapper compare) (item::items)).length≤
        (xmalloc (item::items).length list).2.brk := by
      rw [hq.length_eq]
      exact Nat.le_refl _
    obtain ⟨cells',hr,hd⟩ := linkBatch_represents _ list.brk [] cells _ hm hfresh hle
      fun hnil => absurd hnil hsorted
    refine ⟨cells',⟨hr.chain,fun c hc => ⟨(hr.stored c hc).data,(hr.stored c hc).lt⟩⟩,?_⟩
    rw [hd]
    simp

/-- Destroying a list leaves one that represents no items. -/
theorem sortedListDestroy_represents (list : SortedListType α) :
    Represents (sortedListDestroy list) [] := by
  refine ⟨?_,by simp⟩
  unfold sortedListDestroy
  cases hr : list.rootNext with
  | none => exact hr
  | some node => rfl

/-- Calls on one list. -/
inductive ListOp (α : Type) where
  | insert (data : α)
  | insertBatch (items : List α)
  | destroy

section Runs

variable (qsort : (α→α→ℤ)→List α→List α) (compare : α→α→ℤ)

/-- The effect of a call. -/
def listStep (list : SortedListType α) : ListOp α→SortedListType α
  | .insert data => sortedListInsert compare data list
  | .insertBatch items => sortedListInsertBatch qsort compare items list
  | .destroy => sortedListDestroy list

/-- The list after some calls. -/
def listRun (ops : List (ListOp α)) : SortedListType α :=
  ops.foldl (listStep qsort compare) sortedListInitialise

/-- What a call adds to the items inserted since the list was last destroyed. -/
def pendingStep (pending : List α) : ListOp α→List α
  | .insert data => pending++[data]
  | .insertBatch items => pending++items
  | .destroy => []

/-- The items inserted since the list was last destroyed. -/
def pending (ops : List (ListOp α)) : List α := ops.foldl pendingStep []

/-- After every call of a run the list holds the items inserted since it was last
destroyed, each as often as it was inserted. -/
def KeepsItems (ops : List (ListOp α)) : Prop :=
  ∀ ops₁,ops₁<+:ops→(contents (listRun qsort compare ops₁)).Perm (pending ops₁)

/-- No batch with items arrives while there are items. -/
def BatchesFirst (ops : List (ListOp α)) : Prop :=
  ∀ ops₁ items,ops₁++[.insertBatch items]<+:ops→items≠[]→pending ops₁=[]

variable {qsort} {compare} {ops : List (ListOp α)}

/-- One call more adds its items to the represented list, or replaces them. -/
theorem listStep_represents (hq : ∀ cmp items,(qsort cmp items).Perm items)
    (h : Represents list cells) (op : ListOp α) :
    ∃ cells',Represents (listStep qsort compare list op) cells' ∧ (cells'.map Prod.snd).Perm
      (match op with
        | .insert data => cells.map Prod.snd++[data]
        | .insertBatch items => if items=[] then cells.map Prod.snd else items
        | .destroy => []) := by
  cases op with
  | insert data =>
    obtain ⟨cells',hr,hd⟩ := sortedListInsert_represents compare data h
    refine ⟨cells',hr,?_⟩
    rw [hd]
    exact (place_perm ..).trans (List.perm_append_singleton ..).symm
  | insertBatch items =>
    obtain ⟨cells',hr,hd⟩ := sortedListInsertBatch_represents compare (hq _ items) h
    refine ⟨cells',hr,?_⟩
    rw [hd]
    dsimp only
    split
    · exact .refl _
    · exact hq _ _
  | destroy => exact ⟨[],sortedListDestroy_represents list,.refl _⟩

/-- Every run leaves a list in the heap. -/
theorem listRun_represents (hq : ∀ cmp items,(qsort cmp items).Perm items)
    (ops : List (ListOp α)) : ∃ cells,Represents (listRun qsort compare ops) cells := by
  induction ops using List.reverseRecOn with
  | nil => exact ⟨[],represents_initialise⟩
  | append_singleton ops op ih =>
    obtain ⟨cells,h⟩ := ih
    obtain ⟨cells',h',-⟩ := listStep_represents hq h op
    refine ⟨cells',?_⟩
    rw [listRun,List.foldl_append]
    exact h'

/-- A call adds its items, or replaces all of them if it is a batch. -/
theorem contents_append (hq : ∀ cmp items,(qsort cmp items).Perm items) (compare : α→α→ℤ)
    (ops : List (ListOp α)) (op : ListOp α) :
    (contents (listRun qsort compare (ops++[op]))).Perm
      (match op with
        | .insert data => contents (listRun qsort compare ops)++[data]
        | .insertBatch items => if items=[] then contents (listRun qsort compare ops) else items
        | .destroy => []) := by
  obtain ⟨cells,h⟩ : ∃ cells,Represents (listRun qsort compare ops) cells :=
    listRun_represents hq ops
  obtain ⟨cells',h',hp⟩ := @listStep_represents _ _ _ _ compare hq h op
  have hrun : listRun qsort compare (ops++[op])=
      listStep qsort compare (listRun qsort compare ops) op := by
    rw [listRun,List.foldl_append]
    rfl
  rw [hrun,h'.contents_eq,h.contents_eq]
  exact hp

/-- The pending items after one more call. -/
theorem pending_append (op : ListOp α) : pending (ops++[op])=pendingStep (pending ops) op := by
  rw [pending,List.foldl_append]
  rfl

/-- A run keeps its items when it does so before its last call and after it. -/
theorem keepsItems_append (op : ListOp α) : KeepsItems qsort compare (ops++[op]) ↔
    KeepsItems qsort compare ops ∧
      (contents (listRun qsort compare (ops++[op]))).Perm (pending (ops++[op])) := by
  constructor
  · intro h
    exact ⟨fun ops₁ h₁ => h ops₁ (h₁.trans (List.prefix_append ..)),h _ (List.prefix_refl _)⟩
  · rintro ⟨h,hlast⟩ ops₁ h₁
    rcases List.prefix_concat_iff.mp h₁ with rfl|h₁
    · exact hlast
    · exact h ops₁ h₁

/-- A longer run has its batches first if the run has and a batch at its end finds no items. -/
theorem batchesFirst_append (op : ListOp α) : BatchesFirst (ops++[op]) ↔
    BatchesFirst ops ∧ ∀ items,op=.insertBatch items→items≠[]→pending ops=[] := by
  constructor
  · intro h
    refine ⟨fun ops₁ items h₁ => h ops₁ items (h₁.trans (List.prefix_append ..)),?_⟩
    rintro items rfl
    exact h ops items (List.prefix_refl _)
  · rintro ⟨h,hlast⟩ ops₁ items h₁ hne
    rcases List.prefix_concat_iff.mp h₁ with he|h₁
    · obtain ⟨rfl,hop⟩ := List.append_inj' he rfl
      exact hlast items (List.singleton_inj.mp hop).symm hne
    · exact h ops₁ items h₁ hne

/-- The sorted list loses and duplicates nothing exactly when no batch with items
arrives while there are items: a batch is linked from the root on, in place of
what was there. -/
theorem keepsItems_iff_batchesFirst (hq : ∀ cmp items,(qsort cmp items).Perm items)
    (ops : List (ListOp α)) : KeepsItems qsort compare ops ↔ BatchesFirst ops := by
  induction ops using List.reverseRecOn with
  | nil =>
    refine ⟨fun _ ops₁ items h₁ => ?_,fun _ ops₁ h₁ => ?_⟩
    · simp at h₁
    · obtain rfl := List.prefix_nil.mp h₁
      exact .refl _
  | append_singleton ops op ih =>
    rw [keepsItems_append,batchesFirst_append,ih]
    refine and_congr_right fun hb => ?_
    have hold : (contents (listRun qsort compare ops)).Perm (pending ops) :=
      ih.mpr hb ops (List.prefix_refl _)
    have hnew := contents_append hq compare ops op
    rw [hnew.congr_left,pending_append]
    cases op with
    | insert data =>
      refine iff_of_true (hold.append_right _) ?_
      simp
    | destroy =>
      refine iff_of_true (.refl _) ?_
      simp
    | insertBatch items =>
      dsimp only [pendingStep]
      by_cases hi : items=[]
      · subst hi
        refine iff_of_true (by simpa using hold) ?_
        simp
      · rw [if_neg hi]
        constructor
        · intro hp items' he _
          have hlen := hp.length_eq
          rw [List.length_append] at hlen
          exact List.length_eq_zero_iff.mp (by omega)
        · intro hp
          rw [hp items rfl hi]
          exact .refl _

end Runs

/-- A `qsort` that merges sorted halves. -/
def mergeQsort (cmp : α→α→ℤ) (items : List α) : List α :=
  items.mergeSort fun a b => decide (cmp a b≤0)

/-- `mergeQsort` permutes its items whatever the comparison says. -/
theorem mergeQsort_perm (cmp : α→α→ℤ) (items : List α) : (mergeQsort cmp items).Perm items :=
  List.mergeSort_perm ..

/-- Numbers in descending order: 1 when the first goes after the second. -/
def compareDesc (a b : ℕ) : ℤ := if a<b then 1 else 0

/-- A batch, an item behind it, the end of the list and another item. -/
theorem keepsItems_iff_batchesFirst_mixed :
    (∀ cmp items,(mergeQsort cmp items : List ℕ).Perm items) ∧
      (KeepsItems mergeQsort compareDesc [.insertBatch [3,5],.insert 4,.destroy,.insert 1] ↔
        BatchesFirst [.insertBatch [3,5],.insert 4,.destroy,.insert 1]) :=
  ⟨mergeQsort_perm,keepsItems_iff_batchesFirst mergeQsort_perm _⟩

/-- A batch behind a single item loses that item. -/
theorem batch_drops_earlier_item :
    (∀ cmp items,(mergeQsort cmp items : List ℕ).Perm items) ∧
      ¬KeepsItems mergeQsort compareDesc [.insert 1,.insertBatch [2]] := by
  refine ⟨mergeQsort_perm,fun h => ?_⟩
  have hp := (h _ (List.prefix_refl _)).length_eq
  have hcontents : contents (listRun mergeQsort compareDesc [.insert 1,.insertBatch [2]])=[2] := by
    simp [listRun,listStep,mergeQsort,contents,iterate,sortedListInsert,sortedListInsertBatch,
      linkBatch,linkNode,setNext,xmalloc,search,walk,sortedListNextItem,SortedListType.next,
      sortedListInitialise]
  rw [hcontents] at hp
  simp [pending,pendingStep] at hp

end IftopColor.SortedList
