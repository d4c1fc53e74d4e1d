import IftopColor.GenericHash
import IftopColor.MapHistory

/-!
# The service table

Names of services by port and protocol. Ports of TCP and UDP have a slot of their own
in an array, every other pair is kept in a generic hash table. Whatever the part a pair
is routed to, a lookup returns the name of its latest insertion, unless the pair was
deleted since. The counter is raised by every insertion, also by one that replaces a
name, so it counts the replacements on top of the services.
-/

namespace IftopColor.ServHash

open ChainTable ChainHeap ChainLog GenericHash GuardedRun MapHistory

/-- A name, a C string that the table has a copy of. -/
abbrev Name := List Char

/-- `ip_service`. -/
structure IpService where
  /-- Port. -/
  port : ℤ
  /-- Protocol. -/
  protocol : ℤ
  deriving DecidableEq

/-- `SERV_NUM_PORTS`. -/
def servNumPorts : ℕ := 65536

/-- `OTHER_HASH_SIZE`. -/
def otherHashSize : ℕ := 127

/-- `other_compare`. -/
def otherCompare (a b : IpService) : Bool := a.port==b.port && a.protocol==b.protocol

/-- `other_hash`; the sum is converted to an unsigned int. -/
def otherHash (s : IpService) : ℕ := ((s.port*31+s.protocol)%2^32).toNat%otherHashSize

/-- The comparison says that pairs are equal when they are, and only then. -/
theorem otherCompare_iff {a b : IpService} : otherCompare a b=true ↔ a=b := by
  cases a
  cases b
  simp [otherCompare]

/-- The table that `other_hash_create` makes. -/
def otherSpec : HashSpec IpService where
  size := otherHashSize
  hash := otherHash
  compare := otherCompare
  hash_lt _ := Nat.mod_lt _ (by decide)
  hash_eq a b h := by rw [otherCompare_iff.mp h]

/-- A place in one of the two arrays. -/
inductive Slot where
  /-- An element of `tcp`. -/
  | tcp (port : Fin servNumPorts)
  /-- An element of `udp`. -/
  | udp (port : Fin servNumPorts)
  deriving DecidableEq

/-- `serv_table`. The counter is not bounded here. -/
structure ServTable where
  /-- Names of TCP ports. -/
  tcp : Fin servNumPorts→Option Name
  /-- Names of UDP ports. -/
  udp : Fin servNumPorts→Option Name
  /-- Names of all other pairs. -/
  other : HashMem IpService Name
  /-- Member `count`. -/
  count : ℤ

/-- `serv_slot`. -/
def servSlot (port protocol : ℤ) : Option Slot :=
  if h : port<0 ∨ servNumPorts≤ port then none
  else if protocol=6 then some (.tcp ⟨port.toNat,by omega⟩)
  else if protocol=17 then some (.udp ⟨port.toNat,by omega⟩)
  else none

/-- The pointer in a slot. -/
def ServTable.get (t : ServTable) : Slot→Option Name
  | .tcp port => t.tcp port
  | .udp port => t.udp port

/-- Exchange the pointer in a slot. -/
def ServTable.set (t : ServTable) (slot : Slot) (name : Option Name) : ServTable :=
  match slot with
  | .tcp port => {t with tcp := Function.update t.tcp port name}
  | .udp port => {t with udp := Function.update t.udp port name}

/-- `serv_table_create`. -/
def servTableCreate (mem : Mem IpService Name) : ServTable :=
  ⟨fun _ => none,fun _ => none,HashMem.init mem,0⟩

/-- Delete the entry of a pair from the hash table if `hash_find` finds one. -/
def withoutExisting (junk : Mem IpService Name) (other : HashMem IpService Name)
    (key : IpService) : HashMem IpService Name :=
  match other.hashFind otherSpec key with
  | some _ => (other.hashDelete otherSpec junk key).2
  | none => other

/-- `serv_table_insert`; if a node is needed, the allocator returns `node`. -/
def servTableInsert (junk : Mem IpService Name) (node : ℕ) (t : ServTable) (port protocol : ℤ)
    (name : Name) : ServTable :=
  let t := match servSlot port protocol with
    | some slot => t.set slot (some name)
    | none =>
      let key : IpService := ⟨port,protocol⟩
      {t with other := (withoutExisting junk t.other key).hashInsert otherSpec node key name}
  {t with count := t.count+1}

/-- `serv_table_lookup`. -/
def servTableLookup (t : ServTable) (port protocol : ℤ) : Option Name :=
  match servSlot port protocol with
  | some slot => t.get slot
  | none => t.other.hashFind otherSpec ⟨port,protocol⟩

/-- `serv_table_delete`, with the number it returns. -/
def servTableDelete (junk : Mem IpService Name) (t : ServTable) (port protocol : ℤ) : ServTable×ℤ :=
  match servSlot port protocol with
  | some slot =>
    match t.get slot with
    | none => (t,0)
    | some _ => ({t.set slot none with count := t.count-1},1)
  | none =>
    match t.other.hashFind otherSpec ⟨port,protocol⟩ with
    | some _ =>
      ({t with
        other := (t.other.hashDelete otherSpec junk ⟨port,protocol⟩).2
        count := t.count-1},1)
    | none => (t,0)

/-- `serv_table_count`. -/
def servTableCount (t : ServTable) : ℤ := t.count

section Parts

/-- The memory holds a table that has every pair once. -/
def OtherKept (other : HashMem IpService Name) : Prop :=
  ∃ (t : Table otherSpec Name) (log : List (Node IpService Name)),
    Keeps other t log ∧ (log.map Node.key).Nodup

variable {other : HashMem IpService Name} {t : Table otherSpec Name}
  {log : List (Node IpService Name)} {junk : Mem IpService Name} {key : IpService}

/-- The test of the table finds the key of a pair and no other. -/
theorem compare_iff {m : Node IpService Name} : otherSpec.compare m.key key=true ↔ m.key=key :=
  otherCompare_iff

/-- A search begins with the newest entry. -/
theorem find_cons (m : Node IpService Name) (key : IpService) :
    (m::log).find? (fun m => otherSpec.compare m.key key)=
      if m.key=key then some m else log.find? fun m => otherSpec.compare m.key key := by
  by_cases he : m.key=key
  · rw [if_pos he]
    exact List.find?_cons_of_pos (compare_iff.mpr he)
  · rw [if_neg he]
    exact List.find?_cons_of_neg fun hc => he (compare_iff.mp hc)

/-- A lookup in the table is a search of its log. -/
theorem find_log (k : Keeps other t log) (key : IpService) :
    other.hashFind otherSpec key=
      (log.find? fun m => otherSpec.compare m.key key).map Node.record := by
  rw [hashFind_eq k,k.logged.find]

/-- The heap of a new table keeps an empty map. -/
theorem otherKept_init (mem : Mem IpService Name) : OtherKept (HashMem.init mem) :=
  ⟨_,[],keeps_init mem,List.nodup_nil⟩

/-- Nothing is found in the new table. -/
theorem find_init (mem : Mem IpService Name) (key : IpService) :
    (HashMem.init mem : HashMem IpService Name).hashFind otherSpec key=none :=
  find_log (keeps_init mem) key

/-- A pair that is not found is not in the log. -/
theorem not_mem_of_find_none (k : Keeps other t log) (hf : other.hashFind otherSpec key=none) :
    key∉log.map Node.key := by
  rw [find_log k,Option.map_eq_none_iff,List.find?_eq_none] at hf
  intro hm
  obtain ⟨m,hm,he⟩ := List.mem_map.mp hm
  exact hf m hm (compare_iff.mpr he)

/-- Inserting a new pair adds its name and leaves the names of the others. -/
theorem otherInsert_spec (h : OtherKept other) (hf : other.hashFind otherSpec key=none) {node : ℕ}
    (hn : node∉other.allocated) (name : Name) :
    OtherKept (other.hashInsert otherSpec node key name) ∧
      ∀ k,(other.hashInsert otherSpec node key name).hashFind otherSpec k=
        if key=k then some name else other.hashFind otherSpec k := by
  obtain ⟨t,log,hk,hnodup⟩ := h
  have hnew := hashInsert_keeps hk hn key name
  refine ⟨⟨_,_,hnew,List.nodup_cons.mpr ⟨not_mem_of_find_none hk hf,hnodup⟩⟩,fun k => ?_⟩
  rw [find_log hnew,find_log hk]
  by_cases he : key=k
  · rw [find_cons,if_pos he,if_pos he]
    rfl
  · rw [find_cons,if_neg he,if_neg he]

/-- Erasing the entry of a pair leaves the entries of the others. -/
theorem find_erased (hnodup : (log.map Node.key).Nodup) (k : IpService) :
    (log.eraseP fun m => otherSpec.compare m.key key).find? (fun m => otherSpec.compare m.key k)=
      if key=k then none else log.find? fun m => otherSpec.compare m.key k := by
  rcases eraseP_cases (fun m => otherSpec.compare m.key key) log with
    ⟨-,-,xs,m,ys,hlog,-,hm,hrest⟩|⟨-,hno,hsame⟩
  · have hkey := compare_iff.mp hm
    rw [hrest,hlog]
    rw [hlog,List.map_append,List.map_cons,hkey] at hnodup
    have hnot := List.nodup_middle.mp hnodup
    by_cases he : key=k
    · rw [if_pos he,List.find?_eq_none]
      intro x hx hc
      refine (List.nodup_cons.mp hnot).1 ?_
      rw [← List.map_append,he,← compare_iff.mp hc]
      exact List.mem_map_of_mem hx
    · rw [if_neg he,List.find?_append,List.find?_append,find_cons,hkey,if_neg he]
  · rw [hsame]
    by_cases he : key=k
    · rw [if_pos he,List.find?_eq_none]
      intro x hx hc
      rw [← he,hno x hx] at hc
      cases hc
    · rw [if_neg he]

/-- A deletion takes the pair away and no other. -/
theorem otherDelete_spec (junk : Mem IpService Name) (h : OtherKept other) (key : IpService) :
    OtherKept (other.hashDelete otherSpec junk key).2 ∧
      ∀ k,(other.hashDelete otherSpec junk key).2.hashFind otherSpec k=
        if key=k then none else other.hashFind otherSpec k := by
  obtain ⟨t,log,hk,hnodup⟩ := h
  obtain ⟨⟨t',hnew⟩,-⟩ := @hashDelete_step _ _ otherSpec t junk ⟨other,log⟩ hk key
  have hsub : ((log.eraseP fun m => otherSpec.compare m.key key).map Node.key).Sublist
      (log.map Node.key) := (List.eraseP_sublist ..).map _
  refine ⟨⟨t',_,hnew,hsub.nodup hnodup⟩,fun k => ?_⟩
  rw [find_log hnew,find_log hk,find_erased hnodup]
  by_cases he : key=k
  · rw [if_pos he,if_pos he]
    rfl
  · rw [if_neg he,if_neg he]

/-- Taking the pair out before it is inserted again. -/
theorem withoutExisting_spec (junk : Mem IpService Name) (h : OtherKept other) (key : IpService) :
    OtherKept (withoutExisting junk other key) ∧
      ∀ k,(withoutExisting junk other key).hashFind otherSpec k=
        if key=k then none else other.hashFind otherSpec k := by
  unfold withoutExisting
  cases hf : other.hashFind otherSpec key with
  | some _ => exact otherDelete_spec junk h key
  | none =>
    refine ⟨h,fun k => ?_⟩
    by_cases he : key=k
    · rw [if_pos he,← he,hf]
    · rw [if_neg he]

/-- Name of a pair. -/
def ServTable.at (t : ServTable) (key : IpService) : Option Name :=
  servTableLookup t key.port key.protocol

/-- The part of a pair. -/
def IpService.slot (key : IpService) : Option Slot := servSlot key.port key.protocol

/-- Two pairs with one slot are the same pair. -/
theorem slot_injective {a b : IpService} {slot : Slot} (ha : a.slot=some slot)
    (hb : b.slot=some slot) : a=b := by
  obtain ⟨p,q⟩ := a
  obtain ⟨p',q'⟩ := b
  simp only [IpService.slot,servSlot] at ha hb
  grind

/-- A pointer in a slot after one was exchanged. -/
theorem get_set (t : ServTable) (slot slot' : Slot) (name : Option Name) :
    (t.set slot name).get slot'=if slot=slot' then name else t.get slot' := by
  cases slot <;> cases slot' <;>
    simp [ServTable.set,ServTable.get,Function.update_apply,eq_comm]

/-- Exchanging a pointer leaves the hash table alone. -/
@[simp] theorem set_other (t : ServTable) (slot : Slot) (name : Option Name) :
    (t.set slot name).other=t.other := by
  cases slot <;> rfl

/-- Exchanging a pointer leaves the counter alone. -/
@[simp] theorem set_count (t : ServTable) (slot : Slot) (name : Option Name) :
    (t.set slot name).count=t.count := by
  cases slot <;> rfl

/-- The name of a pair is in the array for its slot, or in the generic table. -/
theorem at_eq (t : ServTable) (key : IpService) :
    t.at key=match key.slot with
      | some slot => t.get slot
      | none => t.other.hashFind otherSpec key := rfl

/-- Exchanging the pointer of one pair changes the name of this pair only. -/
theorem at_set (t : ServTable) {key : IpService} {slot : Slot} (hs : key.slot=some slot)
    (name : Option Name) (k : IpService) :
    (t.set slot name).at k=if key=k then name else t.at k := by
  rw [at_eq,at_eq]
  cases hk : k.slot with
  | none =>
    have hne : key≠k := fun he => by rw [he,hk] at hs; cases hs
    rw [if_neg hne]
    simp only [set_other]
  | some slot' =>
    have hiff : slot=slot' ↔ key=k := by
      constructor
      · intro he
        exact slot_injective hs (he ▸ hk)
      · intro he
        rw [he,hk] at hs
        exact (Option.some.inj hs).symm
    simp only [get_set,hiff]

/-- Changing the entry of one pair in the generic table changes the name of this pair only. -/
theorem at_other (t : ServTable) {key : IpService} (hs : key.slot=none)
    {other : HashMem IpService Name} {name : Option Name}
    (hfind : ∀ k,other.hashFind otherSpec k=
      if key=k then name else t.other.hashFind otherSpec k) (k : IpService) :
    ({t with other := other} : ServTable).at k=if key=k then name else t.at k := by
  rw [at_eq,at_eq]
  cases hk : k.slot with
  | none => exact hfind k
  | some slot' =>
    have hne : key≠k := fun he => by rw [he,hk] at hs; cases hs
    rw [if_neg hne]
    rfl

/-- What one change of a pair does to the whole table. -/
structure Changes (t t' : ServTable) (key : IpService) (name : Option Name) : Prop where
  /-- The hash table is kept. -/
  kept : OtherKept t'.other
  /-- The name of the pair is the new one, that of any other pair is as before. -/
  names : ∀ k,t'.at k=if key=k then name else t.at k

/-- An insertion gives its pair the name. -/
theorem servTableInsert_spec {t : ServTable} (h : OtherKept t.other) {key : IpService} {node : ℕ}
    (hn : key.slot=none→node∉(withoutExisting junk t.other key).allocated) (name : Name) :
    Changes t (servTableInsert junk node t key.port key.protocol name) key (some name) ∧
      (servTableInsert junk node t key.port key.protocol name).count=t.count+1 := by
  cases hs : key.slot with
  | some slot =>
    have hslot : servSlot key.port key.protocol=some slot := hs
    simp only [servTableInsert,hslot]
    exact ⟨⟨by rwa [set_other],at_set t hs (some name)⟩,by rw [set_count]⟩
  | none =>
    have hslot : servSlot key.port key.protocol=none := hs
    obtain ⟨hkept,hgone⟩ := withoutExisting_spec junk h key
    have hnone : (withoutExisting junk t.other key).hashFind otherSpec key=none := by
      rw [hgone,if_pos rfl]
    obtain ⟨hkept',hfind⟩ := otherInsert_spec hkept hnone (hn hs) name
    simp only [servTableInsert,hslot]
    refine ⟨⟨hkept',at_other t hs fun k => ?_⟩,trivial⟩
    rw [hfind,hgone]
    by_cases he : key=k
    · rw [if_pos he,if_pos he]
    · rw [if_neg he,if_neg he,if_neg he]

/-- A deletion takes the name of its pair away and reports whether there was one. -/
theorem servTableDelete_spec (junk : Mem IpService Name) {t : ServTable} (h : OtherKept t.other)
    (key : IpService) :
    Changes t (servTableDelete junk t key.port key.protocol).1 key none ∧
      (servTableDelete junk t key.port key.protocol).2=(if (t.at key).isSome then 1 else 0) ∧
      (servTableDelete junk t key.port key.protocol).1.count=
        t.count-if (t.at key).isSome then 1 else 0 := by
  have hsame : t.at key=none→Changes t t key none := fun hnone => ⟨h,fun k => by
    by_cases he : key=k
    · rw [if_pos he,← he,hnone]
    · rw [if_neg he]⟩
  have hat := at_eq t key
  cases hs : key.slot with
  | some slot =>
    have hslot : servSlot key.port key.protocol=some slot := hs
    rw [hs] at hat
    simp only [servTableDelete,hslot]
    cases hg : t.get slot with
    | none =>
      have hnone : t.at key=none := hat.trans hg
      rw [hnone]
      exact ⟨hsame hnone,rfl,(Int.sub_zero _).symm⟩
    | some name =>
      have hsome : t.at key=some name := hat.trans hg
      rw [hsome]
      exact ⟨⟨by rwa [set_other],at_set t hs none⟩,rfl,rfl⟩
  | none =>
    have hslot : servSlot key.port key.protocol=none := hs
    rw [hs] at hat
    simp only [servTableDelete,hslot]
    cases hf : t.other.hashFind otherSpec key with
    | none =>
      have hnone : t.at key=none := hat.trans hf
      rw [hnone]
      exact ⟨hsame hnone,rfl,(Int.sub_zero _).symm⟩
    | some name =>
      have hsome : t.at key=some name := hat.trans hf
      obtain ⟨hkept,hfind⟩ := otherDelete_spec junk h key
      rw [hsome]
      exact ⟨⟨hkept,at_other t hs hfind⟩,rfl,rfl⟩

end Parts

/-- What a caller does with a table, with what the allocator does. -/
inductive Op where
  /-- `serv_table_insert`. -/
  | insert (junk : Mem IpService Name) (node : ℕ) (key : IpService) (name : Name)
  /-- `serv_table_lookup`. -/
  | lookup (key : IpService)
  /-- `serv_table_delete`. -/
  | delete (junk : Mem IpService Name) (key : IpService)

/-- The pair an operation is about. -/
def Op.key : Op→IpService
  | .insert _ _ key _ => key
  | .lookup key => key
  | .delete _ key => key

/-- A table and the history of its names. -/
structure State where
  /-- The table. -/
  table : ServTable
  /-- Insertions and deletions, newest first. -/
  history : List (Entry IpService Name)

/-- A new table. -/
def State.init (mem : Mem IpService Name) : State := ⟨servTableCreate mem,[]⟩

/-- The table after an operation. -/
def perform (t : ServTable) : Op→ServTable
  | .insert junk node key name => servTableInsert junk node t key.port key.protocol name
  | .lookup _ => t
  | .delete junk key => (servTableDelete junk t key.port key.protocol).1

/-- The history after an operation. -/
def recorded (history : List (Entry IpService Name)) : Op→List (Entry IpService Name)
  | .insert _ _ key name => .put key name::history
  | .lookup _ => history
  | .delete _ key => .drop key::history

/-- A step of a run. -/
def next (s : State) (op : Op) : Option State :=
  some ⟨perform s.table op,recorded s.history op⟩

/-- Pairs for which the sum that is hashed is an int. -/
def IpService.Fits (key : IpService) : Prop :=
  -2^31≤ key.port*31+key.protocol ∧ key.port*31+key.protocol<2^31

instance (key : IpService) : Decidable key.Fits := inferInstanceAs (Decidable (_∧_))

/-- The sum of the pair is an int, and the allocator returns a node that is not allocated. -/
def Called (s : State) (op : Op) : Prop :=
  op.key.Fits ∧ match op with
    | .insert junk node key _ =>
      key.slot=none→node∉(withoutExisting junk s.table.other key).allocated
    | _ => True

instance (s : State) (op : Op) : Decidable (Called s op) :=
  match op with
  | .insert junk node key _ => inferInstanceAs
    (Decidable (key.Fits ∧ (key.slot=none→node∉(withoutExisting junk s.table.other key).allocated)))
  | .lookup key => inferInstanceAs (Decidable (key.Fits ∧ True))
  | .delete _ key => inferInstanceAs (Decidable (key.Fits ∧ True))

/-- The table agrees with its history. -/
structure State.Agrees (s : State) : Prop where
  /-- The hash table is kept. -/
  kept : OtherKept s.table.other
  /-- Names. -/
  names : ∀ key,s.table.at key=latest s.history key
  /-- The counter. -/
  count : s.table.count=tally s.history

/-- A new table agrees with the empty history. -/
theorem agrees_init (mem : Mem IpService Name) : (State.init mem).Agrees where
  kept := otherKept_init mem
  names key := by
    rw [at_eq]
    cases key.slot with
    | none => exact find_init mem key
    | some slot => cases slot <;> rfl
  count := rfl

/-- Every operation keeps the table and the history in agreement. -/
theorem next_agrees (s : State) (op : Op) (s' : State) (h : s.Agrees) (hc : Called s op)
    (hn : next s op=some s') : s'.Agrees := by
  obtain rfl : _=s' := Option.some.inj hn
  cases op with
  | insert junk node key name =>
    have hfree : key.slot=none→node∉(withoutExisting junk s.table.other key).allocated := hc.2
    obtain ⟨hch,hcount⟩ := servTableInsert_spec h.kept hfree name
    refine ⟨hch.kept,fun k => ?_,?_⟩
    · rw [recorded,latest,← h.names]
      exact hch.names k
    · rw [recorded,tally,← h.count]
      exact hcount
  | lookup key => exact h
  | delete junk key =>
    obtain ⟨hch,-,hcount⟩ := servTableDelete_spec junk h.kept key
    refine ⟨hch.kept,fun k => ?_,?_⟩
    · rw [recorded,latest,← h.names]
      exact hch.names k
    · rw [recorded,tally,← h.count,← h.names]
      exact hcount

/-- In every run the table agrees with its history. -/
theorem agrees_of_run {mem : Mem IpService Name} {s : State}
    (h : Run next Called (State.init mem) s) : s.Agrees :=
  h.invariant (agrees_init mem) next_agrees

/-- An operation leaves the other pairs alone. -/
theorem perform_frame {s : State} (h : s.Agrees) {op : Op} (hc : Called s op) {key : IpService}
    (hne : op.key≠key) : (perform s.table op).at key=s.table.at key := by
  cases op with
  | insert junk node k name =>
    have hfree : k.slot=none→node∉(withoutExisting junk s.table.other k).allocated := hc.2
    have hch := (servTableInsert_spec h.kept hfree name).1
    exact (hch.names key).trans (if_neg hne)
  | lookup k => rfl
  | delete junk k =>
    have hch := (servTableDelete_spec junk h.kept k).1
    exact (hch.names key).trans (if_neg hne)

/-- After any sequence of operations a lookup returns the name of the latest insertion of its
pair that no deletion of the pair followed. A deletion returns one exactly if the pair
has a name and zero otherwise, and no operation changes the name of another pair. -/
theorem lookup_latest {mem : Mem IpService Name} {s : State}
    (h : Run next Called (State.init mem) s) :
    (∀ port protocol,servTableLookup s.table port protocol=latest s.history ⟨port,protocol⟩) ∧
      (∀ junk port protocol,
        (servTableDelete junk s.table port protocol).2=1 ∧
            servTableLookup s.table port protocol≠none ∨
          (servTableDelete junk s.table port protocol).2=0 ∧
            servTableLookup s.table port protocol=none) ∧
      ∀ op,Called s op→∀ port protocol,op.key≠⟨port,protocol⟩→
        servTableLookup (perform s.table op) port protocol=
          servTableLookup s.table port protocol := by
  have ha := agrees_of_run h
  refine ⟨fun port protocol => ha.names ⟨port,protocol⟩,fun junk port protocol => ?_,
    fun op hc port protocol hne => perform_frame ha hc hne⟩
  have hresult := (servTableDelete_spec junk ha.kept ⟨port,protocol⟩).2.1
  cases hname : servTableLookup s.table port protocol with
  | none =>
    have hat : s.table.at ⟨port,protocol⟩=none := hname
    rw [hat] at hresult
    exact .inr ⟨hresult,rfl⟩
  | some name =>
    have hat : s.table.at ⟨port,protocol⟩=some name := hname
    rw [hat] at hresult
    exact .inl ⟨hresult,nofun⟩

/-- A cell of memory that nothing was stored in. -/
def blank : Mem IpService Name := fun _ => ⟨none,⟨0,0⟩,[],0⟩

/-- One pair inserted twice. -/
def insertedTwice : State :=
  let once := perform (servTableCreate blank) (.insert blank 1 ⟨80,6⟩ ['h'])
  ⟨perform once (.insert blank 2 ⟨80,6⟩ ['w']),[.put ⟨80,6⟩ ['w'],.put ⟨80,6⟩ ['h']]⟩

/-- The two insertions of one pair are a run of calls. -/
theorem insertedTwice_run : Run next Called (State.init blank) insertedTwice :=
  have hfits : IpService.Fits ⟨80,6⟩ := by decide
  .step (a:=.insert blank 2 ⟨80,6⟩ ['w'])
    (.step (a:=.insert blank 1 ⟨80,6⟩ ['h']) .init ⟨hfits,nofun⟩ rfl) ⟨hfits,nofun⟩ rfl

/-- The second name is the one that is found. -/
theorem lookup_latest_twice : servTableLookup insertedTwice.table 80 6=some ['w'] :=
  (lookup_latest insertedTwice_run).1 80 6

/-- Pairs that a lookup finds. -/
def services (t : ServTable) : Set IpService :=
  {key | servTableLookup t key.port key.protocol≠none}

/-- The pairs that are found are those with a name in the history. -/
theorem services_eq {s : State} (h : s.Agrees) : services s.table=keys s.history := by
  ext key
  exact not_congr (Eq.congr_left (h.names key))

/-- After any sequence of operations the count is the number of services exactly if no
insertion of the sequence found its pair in the table. -/
theorem servTableCount_eq_iff {mem : Mem IpService Name} {s : State}
    (h : Run next Called (State.init mem) s) :
    servTableCount s.table=(services s.table).ncard ↔ Fresh s.history := by
  have ha := agrees_of_run h
  rw [servTableCount,ha.count,services_eq ha]
  exact tally_eq_ncard_iff

/-- Three services of three protocols, of which one is deleted and inserted again and another one
is deleted, with a deletion of a pair that has no name. -/
def reinserted : List Op :=
  [.insert blank 1 ⟨80,6⟩ ['h'],.insert blank 2 ⟨53,17⟩ ['d'],.insert blank 3 ⟨9,132⟩ ['s'],
    .delete blank ⟨80,6⟩,.delete blank ⟨22,6⟩,.insert blank 4 ⟨80,6⟩ ['w'],.delete blank ⟨53,17⟩]

/-- The count is the number of services, which is two. -/
theorem servTableCount_eq_iff_reinserted : ∃ s,Run next Called (State.init blank) s ∧
    servTableCount s.table=2 ∧ (services s.table).ncard=2 := by
  have hany : (reinserted.foldlM (fun s op => if Called s op then next s op else none)
      (State.init blank)).any (fun s => decide (servTableCount s.table=2) &&
        decide (s.history=[.drop ⟨53,17⟩,.put ⟨80,6⟩ ['w'],.drop ⟨22,6⟩,.drop ⟨80,6⟩,
          .put ⟨9,132⟩ ['s'],.put ⟨53,17⟩ ['d'],.put ⟨80,6⟩ ['h']]))=true := by
    decide +kernel
  obtain ⟨s,hs,hall⟩ := (Option.any_eq_true _ _).mp hany
  obtain ⟨hcount,hhistory⟩ := Bool.and_eq_true_iff.mp hall
  have hrun : Run next Called (State.init blank) s := Run.init.foldlM hs
  have hfresh : Fresh s.history := by
    rw [of_decide_eq_true hhistory]
    simp [Fresh,latest]
  have hcard := (servTableCount_eq_iff hrun).mpr hfresh
  rw [of_decide_eq_true hcount] at hcard
  exact ⟨s,hrun,of_decide_eq_true hcount,by exact_mod_cast hcard.symm⟩

/-- A service inserted twice is counted twice. -/
theorem servTableCount_twice : Run next Called (State.init blank) insertedTwice ∧
    servTableCount insertedTwice.table=2 ∧ (services insertedTwice.table).ncard=1 := by
  refine ⟨insertedTwice_run,rfl,?_⟩
  rw [services_eq (agrees_of_run insertedTwice_run)]
  have hkeys : keys insertedTwice.history={⟨80,6⟩} := by
    simp [insertedTwice]
  rw [hkeys,Set.ncard_singleton]

end IftopColor.ServHash
