import IftopColor.DisplayMemory

/-!
# Names of processes in a run

A name goes from the socket table into the record of a flow when the flow is new, or when a line of
it is drawn, and from there into the line. On the way it is cut to the sizes of the arrays, and
nothing else is written there. What holds for every character of the tables therefore holds for
every character of the names on the screen.
-/

namespace IftopColor.ProcessNames

open ChainTable RecordStore AddrHash ProcInfo Options PacketDirection History Screen
open ScreenTotals ScreenList TickClock SlotTimes BusiestRows DisplayMemory

/-- All characters of a name are of a kind. -/
def Spelled (p : Char→Prop) (name : List Char) : Prop := ∀ c∈name,p c

/-- The names of a table have only these characters. -/
def TableSpelled (p : Char→Prop) (table : List SockEntry) : Prop := ∀ e∈table,Spelled p e.name

/-- The names in the tables that a call reads have only these characters. -/
def EventSpelled (p : Char→Prop) : ClockEvent→Prop
  | .tick a => TableSpelled p a.env.liveTable ∧ TableSpelled p a.refreshed
  | .packet env _ _ => TableSpelled p env.liveTable

/-- The names in all records have only these characters. -/
def RecordsSpelled (p : Char→Prop) (s : Capture) : Prop := ∀ a,Spelled p (s.histMem a).procName

/-- The names in all records and lines have only these characters. -/
structure NamesSpelled (p : Char→Prop) (u : Ui) : Prop where
  /-- Names of flows. -/
  records : RecordsSpelled p u.toCapture
  /-- Names on lines. -/
  lines : ∀ a,Spelled p (u.lineMem a).processName

section Steps

variable {p : Char→Prop} {s : Capture} {u : Ui} {name : List Char} {env : Env}

/-- A part of a name has the same characters only. -/
theorem Spelled.take (h : Spelled p name) (n : ℕ) : Spelled p (name.take n) :=
  fun c hc => h c (List.mem_of_mem_take hc)

/-- The empty name has only the characters that are asked for. -/
theorem spelled_nil : Spelled p [] := fun _ hc => absurd hc List.not_mem_nil

/-- A lookup finds a name of the table. -/
theorem TableSpelled.lookupFlow {table : List SockEntry} (h : TableSpelled p table) {ap : AddrPair}
    {pe : ProcEntry} (hl : ProcInfo.lookupFlow table ap=some pe) : Spelled p pe.name := by
  have hone {af : AddressFamily} {addr : In6Addr} {port protocol : UInt16}
      (hf : procinfoLookup table af addr port protocol=some pe) : Spelled p pe.name := by
    obtain ⟨e,he,rfl⟩ := Option.map_eq_some_iff.mp hf
    exact h e (List.mem_of_find?_eq_some he)
  unfold ProcInfo.lookupFlow at hl
  split at hl
  · rcases Option.or_eq_some_iff.mp hl with hsrc|⟨-,hdst⟩
    · exact hone hsrc
    · exact hone hdst
  · rcases Option.or_eq_some_iff.mp hl with hsrc|⟨-,hdst⟩
    · exact hone hsrc
    · exact hone hdst
  · exact absurd hl (Option.some_ne_none pe).symm

/-- If memory is written in one place, the names in all places still have only these characters. -/
theorem update_spelled {α : Type} (field : α→List Char) {mem : ℕ→α}
    (h : ∀ a,Spelled p (field (mem a))) (place : ℕ) {x : α} (hx : Spelled p (field x)) :
    ∀ a,Spelled p (field (Function.update mem place x a)) := by
  intro a
  by_cases ha : a=place
  · rw [ha,Function.update_self]
    exact hx
  · rw [Function.update_of_ne ha]
    exact h a

/-- A new record has a name of the table. -/
theorem newRecord_spelled (ht : TableSpelled p env.liveTable) (ap : AddrPair) :
    Spelled p (newRecord env ap).procName := by
  unfold newRecord
  split
  · split
    · rename_i hl
      exact (ht.lookupFlow hl).take _
    · exact spelled_nil
  · exact spelled_nil

/-- Finding or making a record takes its name from the table. -/
theorem RecordsSpelled.findOrCreate (h : RecordsSpelled p s) (ht : TableSpelled p env.liveTable)
    (ap : AddrPair) : RecordsSpelled p (History.findOrCreate env ap s).2 := by
  unfold History.findOrCreate
  split
  · exact h
  · have hzero : RecordsSpelled p (historyCreate s).2 :=
      update_spelled HistoryType.procName h _ spelled_nil
    exact update_spelled HistoryType.procName hzero _ (newRecord_spelled ht ap)

/-- Counting a packet takes names from the table of its call only. -/
theorem RecordsSpelled.handleIpPacket (h : RecordsSpelled p s) (ht : TableSpelled p env.liveTable)
    (iptr : Packet) (hwDir : ℤ) : RecordsSpelled p (History.handleIpPacket env iptr hwDir s) := by
  unfold History.handleIpPacket
  split
  · exact h
  · rename_i a _
    have hfound := h.findOrCreate ht a.key
    refine update_spelled HistoryType.procName hfound _ ?_
    have hname := hfound (History.findOrCreate env a.key s).1
    unfold HistoryType.credit
    split
    · exact hname
    · exact hname

/-- The loop of a rotation writes no names. -/
theorem RecordsSpelled.rotateLoop (pos : Slot) (fuel : ℕ) :
    ∀ (node : Option (Node AddrPair ℕ)) {s : Capture},RecordsSpelled p s→
      RecordsSpelled p (History.rotateLoop pos fuel node s) := by
  induction fuel with
  | zero => exact fun _ _ h => h
  | succ fuel ih =>
    intro node s h
    cases node with
    | none => exact h
    | some node =>
      unfold History.rotateLoop
      dsimp only
      split
      · exact ih _ h
      · exact ih _ (update_spelled HistoryType.procName h _ (h node.record))

/-- A rotation writes no names. -/
theorem RecordsSpelled.historyRotate (h : RecordsSpelled p s) :
    RecordsSpelled p (History.historyRotate s) :=
  RecordsSpelled.rotateLoop _ _ _ h

/-- Lines are changed in something else. -/
theorem forEach_spelled {f : HostPairLine→HostPairLine} {mem : ℕ→HostPairLine}
    (hf : ∀ line,(f line).processName=line.processName) (ns : List (Node AddrPair ℕ))
    (h : ∀ a,Spelled p (mem a).processName) : ∀ a,Spelled p (forEach f ns mem a).processName := by
  induction ns generalizing mem with
  | nil => exact h
  | cons n ns ih =>
    have hname : Spelled p (f (mem n.record)).processName := by
      rw [hf]
      exact h n.record
    exact ih (update_spelled HostPairLine.processName h _ hname)

/-- A process is attributed to a line and its flow. -/
theorem attributeProcess_spelled (ht : TableSpelled p env.liveTable) (key : AddrPair)
    {line : HostPairLine} {hist : HistoryType} (hl : Spelled p line.processName)
    (hh : Spelled p hist.procName) :
    Spelled p (attributeProcess env key line hist).1.processName ∧
      Spelled p (attributeProcess env key line hist).2.procName := by
  unfold attributeProcess
  split
  · split
    · exact ⟨hh.take _,hh⟩
    · split
      · rename_i pe hf
        exact ⟨(ht.lookupFlow hf).take _,(ht.lookupFlow hf).take _⟩
      · exact ⟨hl,hh⟩
  · exact ⟨hl,hh⟩

/-- Finding or making a line writes no name. -/
theorem NamesSpelled.findOrCreateLine (h : NamesSpelled p u) (ap : AddrPair) :
    NamesSpelled p (Screen.findOrCreateLine ap u).2 := by
  unfold Screen.findOrCreateLine
  split
  · exact h
  · exact ⟨h.records,update_spelled HostPairLine.processName h.lines _ spelled_nil⟩

/-- Adding a flow to its line copies the name of its record. -/
theorem NamesSpelled.analyseFlow (h : NamesSpelled p u) (ht : TableSpelled p env.liveTable)
    (n : Node AddrPair ℕ) : NamesSpelled p (Screen.analyseFlow env u n) := by
  have hfound := h.findOrCreateLine (aggregate env.options n.key)
  unfold Screen.analyseFlow
  dsimp only
  generalize Screen.findOrCreateLine (aggregate env.options n.key) u=found at hfound ⊢
  obtain ⟨hline,hhist⟩ := attributeProcess_spelled ht n.key (hfound.lines found.1)
    (hfound.records n.record)
  refine ⟨update_spelled HistoryType.procName hfound.records _ hhist,
    update_spelled HostPairLine.processName hfound.lines _ ?_⟩
  rw [HostPairLine.addFlow,accumulate_eq]
  exact hline

/-- Adding all flows to their lines copies names of records. -/
theorem NamesSpelled.analyseLoop (h : NamesSpelled p u) (ht : TableSpelled p env.liveTable)
    (ns : List (Node AddrPair ℕ)) : NamesSpelled p (ns.foldl (Screen.analyseFlow env) u) := by
  induction ns generalizing u with
  | nil => exact h
  | cons n ns ih => exact ih (h.analyseFlow ht n)

section Analyse

variable (qsort : (ℕ→ℕ→Bool)→List ℕ→List ℕ) (hostName : AddressFamily→ In6Addr→Option (List Char))

/-- Making the list changes no names. -/
theorem NamesSpelled.makeScreenList (h : NamesSpelled p u) :
    NamesSpelled p (Screen.makeScreenList qsort env hostName u) := by
  have hscale := forEach_spelled (f:=HostPairLine.scale (invHistLen u)) (fun _ => rfl)
    (hashItems u.screenHash) h.lines
  have hname := forEach_spelled (f:=HostPairLine.cacheName env.options hostName) (fun _ => rfl)
    (hashItems u.screenHash) hscale
  unfold Screen.makeScreenList sortedListInsertBatch
  dsimp only
  split
  · exact ⟨h.records,hscale⟩
  · split
    · split
      · exact ⟨h.records,hname⟩
      · exact ⟨h.records,hscale⟩
    · split
      · exact ⟨h.records,hname⟩
      · exact ⟨h.records,hscale⟩

/-- An analysis takes names from the table of its call and from records only. -/
theorem NamesSpelled.analyseData (h : NamesSpelled p u) (ht : TableSpelled p env.liveTable) :
    NamesSpelled p (Screen.analyseData qsort env hostName u) := by
  unfold Screen.analyseData
  dsimp only
  split
  · exact h
  · have hcleared : NamesSpelled p (if env.options.freezeorder then
        screenHashClear {u with totals := HostPairLine.zero}
        else screenHashReset (screenListClear {u with totals := HostPairLine.zero})) := by
      split
      · exact ⟨h.records,forEach_spelled (f:=HostPairLine.clear) (fun _ => rfl) _ h.lines⟩
      · exact ⟨h.records,h.lines⟩
    generalize (if env.options.freezeorder then
        screenHashClear {u with totals := HostPairLine.zero}
        else screenHashReset (screenListClear {u with totals := HostPairLine.zero}))=u₁ at hcleared ⊢
    have hlist : NamesSpelled p (Screen.makeScreenList qsort env hostName
        ((hashItems u₁.history).foldl (Screen.analyseFlow env) u₁)) :=
      (hcleared.analyseLoop ht (hashItems u₁.history)).makeScreenList qsort hostName
    obtain ⟨hc,-,hm,-⟩ := calculateTotals_spec (Screen.makeScreenList qsort env hostName
      ((hashItems u₁.history).foldl (Screen.analyseFlow env) u₁))
    refine ⟨?_,?_⟩
    · rw [hc]
      exact hlist.records
    · rw [hm]
      exact hlist.lines

end Analyse

/-- A call of `tick` takes names from the tables that it reads only. -/
theorem NamesSpelled.tick {s : Clocked} (h : NamesSpelled p s.toUi)
    (qsort : (ℕ→ℕ→Bool)→List ℕ→List ℕ) {a : TickArgs} (ha : EventSpelled p (.tick a)) :
    NamesSpelled p (TickClock.tick qsort a s).toUi := by
  have hbefore : NamesSpelled p (beforeDisplay a.now s).toUi := by
    unfold beforeDisplay tickElapsed tickRotate
    split
    · exact ⟨h.records.historyRotate,h.lines⟩
    · exact ⟨h.records,h.lines⟩
  have htable : TableSpelled p (if refreshes a (beforeDisplay a.now s)
      then {a.env with liveTable := a.refreshed} else a.env : Env).liveTable := by
    split
    · exact ha.2
    · exact ha.1
  unfold TickClock.tick
  dsimp only
  split_ifs at htable ⊢
  · exact hbefore.analyseData qsort a.hostName htable
  · exact hbefore
  · exact hbefore.analyseData qsort a.hostName htable
  · exact hbefore

end Steps

/-- In every run the lines carry their keys. -/
theorem labelled_run (qsort : (ℕ→ℕ→Bool)→List ℕ→List ℕ) (start : Timeval) (es : List ClockEvent) :
    Labelled (clockRun qsort start es).toUi := by
  induction es using List.reverseRecOn with
  | nil =>
    intro e he
    have hnone : lines (initClocked start).toUi=[] := by simp [lines,initClocked,initUi,entries]
    rw [clockRun,List.foldl_nil,hnone] at he
    exact absurd he List.not_mem_nil
  | append_singleton es e ih =>
    have hlogged := logged_run qsort start es
    rw [clockRun,List.foldl_append]
    cases e with
    | packet env iptr hwDir => exact ih
    | tick a =>
      have hb := hlogged.beforeDisplay a
      have hbefore : Labelled (beforeDisplay a.now (clockRun qsort start es)).toUi := by
        unfold beforeDisplay tickElapsed tickRotate
        split
        · exact ih
        · exact ih
      obtain ⟨env,-,-,hu⟩ := tick_eq qsort a (clockRun qsort start es)
      rw [List.foldl_cons,List.foldl_nil,←clockRun,clockStep,hu]
      split
      · exact hbefore.analyseData qsort env a.hostName hb.wf
      · exact hbefore

end IftopColor.ProcessNames
