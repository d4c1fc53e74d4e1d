import IftopColor.Screen
import IftopColor.ByteConservation
import Mathlib.Algebra.BigOperators.Ring.Finset

/-!
# Screen lines add up to the totals

The three loops with their shared index compute the plain sum over the newest
slots of each division. The loop over the history groups these sums by
aggregated key, whatever lines earlier calls left behind; scaling the lines
and dividing the totals then use the same lengths. Together with the
conservation of bytes in the history, the rates of all lines add up to the
rates of the totals.
-/

namespace IftopColor.ScreenTotals

open ChainTable BlockPool RecordStore AddrHash Options PacketDirection History FlowAccounting
open ByteConservation Screen

/-- The counters of a line: both rates of all divisions and both totals. -/
abbrev Counters := (Division→ℚ)×(Division→ℚ)×ℕ×ℕ

/-- Counters of a line. -/
def counters (line : HostPairLine) : Counters :=
  (line.recv,line.sent,line.totalRecv,line.totalSent)

/-- Plain sum of a counter over the newest slots, as many as the division has. -/
def windowSum (pos : Slot) (bytes : Slot→ℕ) (j : Division) : ℕ :=
  ((List.range (historyDivs j)).map fun i => bytes (histIdx pos i)).sum

/-- What a record contributes to the counters of its line. -/
def flowCounters (pos : Slot) (r : HistoryType) : Counters :=
  (fun j => windowSum pos r.recv j,fun j => windowSum pos r.sent j,r.totalRecv,r.totalSent)

/-- Plain sum of a counter over a range of slot ages. -/
def slotSum (pos : Slot) (bytes : Slot→ℕ) (start stop : ℕ) : ℕ :=
  ((List.range' start (stop-start)).map fun i => bytes (histIdx pos i)).sum

/-- One loop adds its slots to its divisions and leaves the others alone. -/
theorem slotLoop_eq (divs : List Division) (start stop : ℕ) (pos : Slot) (hist : HistoryType)
    (line : HostPairLine) :
    slotLoop divs start stop pos hist line={line with
      recv := fun j => line.recv j+
        (if j∈divs then slotSum pos hist.recv start stop else 0 : ℕ)
      sent := fun j => line.sent j+
        (if j∈divs then slotSum pos hist.sent start stop else 0 : ℕ)} := by
  unfold slotLoop slotSum
  generalize List.range' start (stop-start)=slots
  induction slots generalizing line with
  | nil => simp
  | cons i is ih =>
    rw [List.foldl_cons,ih]
    simp only [addSlot,List.map_cons,List.sum_cons]
    congr 1
    · funext j
      split <;> push_cast <;> ring
    · funext j
      split <;> push_cast <;> ring

/-- The window of a division is made of the ranges of the loops that feed it. -/
theorem windowSum_eq (pos : Slot) (bytes : Slot→ℕ) (j : Division) :
    windowSum pos bytes j=
      (if j∈[(0 : Division),1,2] then slotSum pos bytes 0 2 else 0)+
        (if j∈[(1 : Division),2] then slotSum pos bytes 2 10 else 0)+
        (if j∈[(2 : Division)] then slotSum pos bytes 10 40 else 0) := by
  have h2 : List.range 2=List.range' 0 (2-0) := by decide
  have h10 : List.range 10=List.range' 0 (2-0)++List.range' 2 (10-2) := by decide
  have h40 : List.range 40=List.range' 0 (2-0)++List.range' 2 (10-2)++List.range' 10 (40-10) := by
    decide
  have hd : historyDivs 0=2 ∧ historyDivs 1=10 ∧ historyDivs 2=40 := by decide
  match j with
  | 0 => simp only [windowSum,hd,h2,slotSum,List.mem_cons,List.not_mem_nil]; simp
  | 1 => simp only [windowSum,hd,h10,slotSum,List.map_append,List.sum_append]; simp
  | 2 => simp only [windowSum,hd,h40,slotSum,List.map_append,List.sum_append]; simp

/-- The three loops together add the window of every division. -/
theorem accumulate_eq (pos : Slot) (hist : HistoryType) (line : HostPairLine) :
    accumulate pos hist line={line with
      recv := fun j => line.recv j+windowSum pos hist.recv j
      sent := fun j => line.sent j+windowSum pos hist.sent j} := by
  have hd : historyDivs 0=2 ∧ historyDivs 1=10 := by decide
  simp only [accumulate,slotLoop_eq,hd,windowSum_eq,historyLength,Nat.cast_add,add_assoc]

/-- A flow adds its own counters to those of the line. -/
theorem addFlow_counters (pos : Slot) (hist : HistoryType) (line : HostPairLine) :
    counters (line.addFlow pos hist)=counters line+flowCounters pos hist := by
  rw [HostPairLine.addFlow,accumulate_eq]
  rfl

/-- Two records differ at most in their process. -/
structure SameCounts (r r' : HistoryType) : Prop where
  /-- Received bytes. -/
  recv : r'.recv=r.recv
  /-- Sent bytes. -/
  sent : r'.sent=r.sent
  /-- Received bytes in total. -/
  totalRecv : r'.totalRecv=r.totalRecv
  /-- Sent bytes in total. -/
  totalSent : r'.totalSent=r.totalSent
  /-- Last packet. -/
  lastWrite : r'.lastWrite=r.lastWrite

/-- Everything the analysis reads is kept; records may learn their process. -/
structure Kept (u u' : Ui) : Prop where
  /-- The flow table. -/
  history : u'.history=u.history
  /-- The records. -/
  records : ∀ p,SameCounts (u.histMem p) (u'.histMem p)
  /-- The pool of records. -/
  histPool : u'.histPool=u.histPool
  /-- The totals of the history. -/
  historyTotals : u'.historyTotals=u.historyTotals
  /-- The ring position. -/
  historyPos : u'.historyPos=u.historyPos
  /-- The number of slots in use. -/
  historyLen : u'.historyLen=u.historyLen
  /-- Time in the current slot. -/
  slotElapsed : u'.slotElapsed=u.slotElapsed
  /-- The totals of the screen. -/
  totals : u'.totals=u.totals

/-- The program state fits together, with both tables on one node pool. -/
structure UiWf (u : Ui) : Prop where
  /-- The capture side, next to the nodes of the screen table. -/
  capture : Wf (addrs u.screenHash) u.toCapture
  /-- The screen table. -/
  linked : Linked u.screenHash
  /-- All lines were handed out by the heap. -/
  fresh : ∀ n∈u.screenHash.nodes,n.record<u.lineBrk
  /-- There is a current slot. -/
  length : 1≤u.historyLen
  /-- Time does not run backwards within a slot. -/
  elapsed : 0≤u.slotElapsed

/-- A record that stays as it is has the same counts. -/
theorem SameCounts.refl (r : HistoryType) : SameCounts r r := ⟨rfl,rfl,rfl,rfl,rfl⟩

/-- Counts that stay the same in two changes stay the same in both together. -/
theorem SameCounts.trans {r r' r'' : HistoryType} (h : SameCounts r r') (h' : SameCounts r' r'') :
    SameCounts r r'' :=
  ⟨h'.recv.trans h.recv,h'.sent.trans h.sent,h'.totalRecv.trans h.totalRecv,
    h'.totalSent.trans h.totalSent,h'.lastWrite.trans h.lastWrite⟩

/-- What is kept by two steps is kept by both together. -/
theorem Kept.trans {u u' u'' : Ui} (h : Kept u u') (h' : Kept u' u'') : Kept u u'' :=
  ⟨h'.history.trans h.history,fun p => (h.records p).trans (h'.records p),
    h'.histPool.trans h.histPool,h'.historyTotals.trans h.historyTotals,
    h'.historyPos.trans h.historyPos,h'.historyLen.trans h.historyLen,
    h'.slotElapsed.trans h.slotElapsed,h'.totals.trans h.totals⟩

/-- A step that leaves the whole capture side alone. -/
theorem Kept.of_eq {u u' : Ui} (h : u'.history=u.history) (hm : u'.histMem=u.histMem)
    (hp : u'.histPool=u.histPool) (ht : u'.historyTotals=u.historyTotals)
    (hpos : u'.historyPos=u.historyPos) (hl : u'.historyLen=u.historyLen)
    (he : u'.slotElapsed=u.slotElapsed) (hT : u'.totals=u.totals) : Kept u u' :=
  ⟨h,fun p => by rw [hm]; exact .refl _,hp,ht,hpos,hl,he,hT⟩

/-- Contributions do not depend on the process. -/
theorem SameCounts.flowCounters {r r' : HistoryType} (h : SameCounts r r') (pos : Slot) :
    flowCounters pos r'=flowCounters pos r := by
  simp only [ScreenTotals.flowCounters,h.recv,h.sent,h.totalRecv,h.totalSent]

/-- Attributing a process changes no counter of the line and no count of the record. -/
theorem attributeProcess_counts (env : Env) (key : AddrPair) (line : HostPairLine)
    (hist : HistoryType) :
    counters (attributeProcess env key line hist).1=counters line ∧
      SameCounts hist (attributeProcess env key line hist).2 := by
  unfold attributeProcess
  split
  · split
    · exact ⟨rfl,.refl _⟩
    · split
      · exact ⟨rfl,rfl,rfl,rfl,rfl,rfl⟩
      · exact ⟨rfl,.refl _⟩
  · exact ⟨rfl,.refl _⟩

variable {u : Ui}

/-- What one round of the loop does to the line it has found or created. -/
def addRound (env : Env) (key : AddrPair) (pos : Slot) (hist : HistoryType) (line : HostPairLine) :
    HostPairLine :=
  (attributeProcess env key line hist).1.addFlow pos (attributeProcess env key line hist).2

/-- A round adds the counters of its flow. -/
theorem addRound_counters (env : Env) (key : AddrPair) (pos : Slot) (hist : HistoryType)
    (line : HostPairLine) :
    counters (addRound env key pos hist line)=counters line+flowCounters pos hist := by
  obtain ⟨h1,h2⟩ := attributeProcess_counts env key line hist
  rw [addRound,addFlow_counters,h1,h2.flowCounters]

/-- A round of the loop keeps the capture side, keeps the state well formed and
adds its flow to the line of the aggregated key. -/
theorem analyseFlow_spec (env : Env) (h : UiWf u) (n : Node AddrPair ℕ) :
    Kept u (analyseFlow env u n) ∧ UiWf (analyseFlow env u n) ∧
      (lines (analyseFlow env u n)).Perm
        (upsert (aggregate env.options n.key)
          {HostPairLine.zero with ap := aggregate env.options n.key}
          (addRound env n.key u.historyPos (u.histMem n.record)) (lines u)) := by
  have hrec (line : HostPairLine) (p : ℕ) : SameCounts (u.histMem p)
      (Function.update u.histMem n.record
        (attributeProcess env n.key line (u.histMem n.record)).2 p) := by
    by_cases hp : p=n.record
    · subst hp
      rw [Function.update_self]
      exact (attributeProcess_counts env n.key line _).2
    · rw [Function.update_of_ne hp]
      exact .refl _
  unfold analyseFlow findOrCreateLine addrHashFind
  cases hf : u.screenHash.find (aggregate env.options n.key) with
  | some m =>
    refine ⟨⟨rfl,hrec _,rfl,rfl,rfl,rfl,rfl,rfl⟩,?_,?_⟩
    · exact ⟨⟨h.capture.linked,h.capture.nodes,h.capture.records⟩,h.linked,h.fresh,h.length,
        h.elapsed⟩
    · exact .of_eq (entries_found addrCompare_iff h.linked hf u.lineMem _
        (addRound env n.key u.historyPos (u.histMem n.record)))
  | none =>
    have hk := (find_none_iff addrCompare_iff).mp hf
    have hr : u.lineBrk∉u.screenHash.nodes.map Node.record := by
      intro hm
      obtain ⟨m,hm,he⟩ := List.mem_map.mp hm
      have := h.fresh m hm
      omega
    obtain ⟨hn,ha⟩ := addrHashInsert_owns (aggregate env.options n.key) u.lineBrk
      (h.capture.nodes.perm List.perm_append_comm)
    refine ⟨⟨rfl,hrec _,rfl,rfl,rfl,rfl,rfl,rfl⟩,?_,?_⟩
    · refine ⟨⟨h.capture.linked,hn.perm List.perm_append_comm,h.capture.records⟩,
        linked_push h.linked ha hr hk,?_,h.length,h.elapsed⟩
      intro m hm
      rcases List.mem_cons.mp ((nodes_push u.screenHash _ _ _).subset hm) with rfl|hm
      · exact Nat.lt_succ_self _
      · exact (h.fresh m hm).trans (Nat.lt_succ_self _)
    · simp only [Option.map_none,addrHashInsert,lines,Function.update_idem,Function.update_self]
      exact entries_inserted addrCompare_iff hf hr u.lineMem _
        (addRound env n.key u.historyPos (u.histMem n.record))

/-- The lines hold the counters of a list of flows, grouped by aggregated key. -/
abbrev Shows (o : OptionsT) (u₀ : Ui) (ns : List (Node AddrPair ℕ)) (u : Ui) : Prop :=
  Grouped (fun n : Node AddrPair ℕ => aggregate o n.key)
    (fun n => flowCounters u₀.historyPos (u₀.histMem n.record)) counters ns (lines u)

/-- The loop adds the flows it visits, in a state whose lines hold the flows
visited before. -/
theorem analyseLoop_spec (env : Env) (u₀ : Ui) (ns : List (Node AddrPair ℕ)) :
    ∀ (visited : List (Node AddrPair ℕ)) (u : Ui),Kept u₀ u→UiWf u→
      Shows env.options u₀ visited u→
      let u' := ns.foldl (analyseFlow env) u
      Kept u₀ u' ∧ UiWf u' ∧ Shows env.options u₀ (visited++ns) u' := by
  induction ns with
  | nil =>
    intro visited u hk hw hs
    rw [List.append_nil]
    exact ⟨hk,hw,hs⟩
  | cons n ns ih =>
    intro visited u hk hw hs
    obtain ⟨hk1,hw1,hp⟩ := analyseFlow_spec env hw n
    have hadd (line : HostPairLine) :
        counters (addRound env n.key u.historyPos (u.histMem n.record) line)=
          counters line+flowCounters u₀.historyPos (u₀.histMem n.record) := by
      rw [addRound_counters,hk.historyPos,(hk.records _).flowCounters]
    have hs1 : Shows env.options u₀ (visited++[n]) (analyseFlow env u n) :=
      (hs.upsert rfl hadd).perm hp
    have hi := ih (visited++[n]) (analyseFlow env u n) (hk.trans hk1) hw1 hs1
    rwa [List.append_assoc] at hi

/-- Changing every line leaves the rest alone. -/
theorem forEachLine_spec (f : HostPairLine→HostPairLine) (h : UiWf u)
    {ns : List (Node AddrPair ℕ)} (hn : ns=u.screenHash.nodes) :
    let u' := {u with lineMem := forEach f ns u.lineMem}
    Kept u u' ∧ UiWf u' ∧ lines u'=(lines u).map fun e => (e.1,f e.2) := by
  refine ⟨.of_eq rfl rfl rfl rfl rfl rfl rfl rfl,
    ⟨h.capture,h.linked,h.fresh,h.length,h.elapsed⟩,?_⟩
  dsimp only [lines]
  rw [hn,entries_forEach h.linked]

/-- No two lines have the same key. -/
theorem UiWf.nodup (h : UiWf u) : (keys (lines u)).Nodup := by
  rw [lines,keys_entries]
  exact h.linked.keys

/-- With a frozen order the lines stay and all of them are zeroed. -/
theorem screenHashClear_spec (o : OptionsT) (u₀ : Ui) (h : UiWf u) :
    Kept u (screenHashClear u) ∧ UiWf (screenHashClear u) ∧ Shows o u₀ [] (screenHashClear u) := by
  obtain ⟨hk,hw,hl⟩ := forEachLine_spec HostPairLine.clear h (hashItems_eq h.linked.addrs)
  refine ⟨hk,hw,hw.nodup,by simp,?_⟩
  intro e he
  rw [screenHashClear,hl] at he
  obtain ⟨e',-,rfl⟩ := List.mem_map.mp he
  rfl

/-- Without a frozen order all lines are freed and none is shown. -/
theorem screenHashReset_spec (o : OptionsT) (u₀ : Ui) (h : UiWf u) :
    Kept u (screenHashReset (screenListClear u)) ∧
      UiWf (screenHashReset (screenListClear u)) ∧
      Shows o u₀ [] (screenHashReset (screenListClear u)) := by
  have hn := addrHashDeleteAllFree_owns (h.capture.nodes.perm List.perm_append_comm)
  have hlines : lines (screenHashReset (screenListClear u))=[] := by
    simp [lines,screenHashReset,addrHashDeleteAllFree,entries]
  refine ⟨.of_eq rfl rfl rfl rfl rfl rfl rfl rfl,?_,?_⟩
  · refine ⟨⟨h.capture.linked,hn.perm List.perm_append_comm,h.capture.records⟩,linked_empty,?_,
      h.length,h.elapsed⟩
    intro m hm
    simp [screenHashReset,screenListClear,addrHashDeleteAllFree] at hm
  · rw [Shows,hlines]
    exact ⟨List.nodup_nil,by simp,by simp⟩

/-- Every division has a positive length. -/
theorem historyLengthOf_pos (h : UiWf u) (j : Division) : 0<historyLengthOf u j := by
  have hel := h.elapsed
  unfold historyLengthOf resolution
  generalize (if u.historyLen<historyDivs j then u.historyLen else historyDivs j)=slots
  dsimp only
  by_cases hs : slots≤1
  · rw [if_pos hs]
    split <;> linarith
  · rw [if_neg hs]
    have hs2 : 2 ≤ slots := by omega
    have hq : (2 : ℚ) ≤ slots := by exact_mod_cast hs2
    linarith

/-- The lengths depend on the ring and the clock only. -/
theorem Kept.historyLengthOf {u' : Ui} (h : Kept u u') : historyLengthOf u'=historyLengthOf u := by
  funext j
  simp only [Screen.historyLengthOf,h.historyLen,h.slotElapsed]

/-- Counters after scaling. -/
def scaled (inv : Division→ℚ) (c : Counters) : Counters :=
  (fun j => c.1 j*inv j,fun j => c.2.1 j*inv j,c.2.2)

section Analyse

variable (qsort : (ℕ→ℕ→Bool)→List ℕ→List ℕ) (env : Env)
  (hostName : AddressFamily→In6Addr→Option (List Char))

/-- Sorting only changes the screen list. -/
theorem sortedListInsertBatch_spec (items : List ℕ) (h : UiWf u) :
    let u' := sortedListInsertBatch qsort env items u
    Kept u u' ∧ UiWf u' ∧ lines u'=lines u := by
  unfold sortedListInsertBatch
  dsimp only
  split
  · exact ⟨.of_eq rfl rfl rfl rfl rfl rfl rfl rfl,h,rfl⟩
  · exact ⟨.of_eq rfl rfl rfl rfl rfl rfl rfl rfl,
      ⟨h.capture,h.linked,h.fresh,h.length,h.elapsed⟩,rfl⟩

/-- The screen list is built without touching the capture side; every line is
scaled and keeps its key. -/
theorem makeScreenList_spec (h : UiWf u) :
    let u' := makeScreenList qsort env hostName u
    Kept u u' ∧ UiWf u' ∧ ∃ g : HostPairLine→HostPairLine,
      (∀ line,counters (g line)=scaled (invHistLen u) (counters line)) ∧
        lines u'=(lines u).map fun e => (e.1,g e.2) := by
  have hitems : hashItems u.screenHash=u.screenHash.nodes := hashItems_eq h.linked.addrs
  obtain ⟨hk1,hw1,hl1⟩ := forEachLine_spec (HostPairLine.scale (invHistLen u)) h hitems
  unfold makeScreenList
  dsimp only
  split
  · exact ⟨hk1,hw1,_,fun _ => rfl,hl1⟩
  · split
    · obtain ⟨hk2,hw2,hl2⟩ := forEachLine_spec (HostPairLine.cacheName env.options hostName) hw1
        hitems
      obtain ⟨hk3,hw3,hl3⟩ := sortedListInsertBatch_spec qsort env
        ((hashItems u.screenHash).map Node.record) hw2
      refine ⟨(hk1.trans hk2).trans hk3,hw3,
        fun line => (line.scale (invHistLen u)).cacheName env.options hostName,fun _ => rfl,?_⟩
      rw [hl3,hl2,hl1,List.map_map]
      rfl
    · obtain ⟨hk3,hw3,hl3⟩ := sortedListInsertBatch_spec qsort env
        ((hashItems u.screenHash).map Node.record) hw1
      exact ⟨hk1.trans hk3,hw3,_,fun _ => rfl,by rw [hl3,hl1]⟩

end Analyse

/-- The peaks are all that the scan of the slots changes. -/
theorem peaks_spec (slots : List Slot) (u : Ui) :
    ∃ s r t,slots.foldl peakSlot u={u with peaksent := s,peakrecv := r,peaktotal := t} := by
  induction slots generalizing u with
  | nil => exact ⟨_,_,_,rfl⟩
  | cons i is ih => exact ih (peakSlot u i)

/-- The totals are the windows of the history's totals, divided by the lengths;
apart from them only the peaks change. -/
theorem calculateTotals_spec (u : Ui) :
    let u' := calculateTotals u
    u'.toCapture=u.toCapture ∧ u'.screenHash=u.screenHash ∧ u'.lineMem=u.lineMem ∧
      u'.lineBrk=u.lineBrk ∧ u'.slotElapsed=u.slotElapsed ∧
      u'.totals=(accumulate u.historyPos u.historyTotals u.totals).divide (historyLengthOf u) := by
  obtain ⟨s,r,t,hp⟩ := peaks_spec (List.finRange historyLength) u
  have hl : historyLengthOf {u with peaksent := s,peakrecv := r,peaktotal := t}=
      historyLengthOf u := rfl
  dsimp only [calculateTotals]
  rw [hp,hl]
  exact ⟨rfl,rfl,rfl,rfl,rfl,rfl⟩

/-- Calls that change what the screen shows. -/
inductive UiEvent where
  | capture (e : Event)
  | elapsed (diff : ℚ)
  | analyse (env : Env) (hostName : AddressFamily→In6Addr→Option (List Char))

variable (qsort : (ℕ→ℕ→Bool)→List ℕ→List ℕ)

/-- The effect of a call. -/
def uiStep (u : Ui) : UiEvent→Ui
  | .capture e => {u with toCapture := step u.toCapture e}
  | .elapsed diff => setSlotElapsed diff u
  | .analyse env hostName => analyseData qsort env hostName u

/-- The state after a run from an empty history and an empty screen. -/
def uiRun (es : List UiEvent) : Ui := es.foldl (uiStep qsort) initUi

/-- Flows whose keys aggregate to a key. -/
def flowsOf (o : OptionsT) (u : Ui) (k : AddrPair) : List (AddrPair×HistoryType) :=
  (flows u.toCapture).filter fun e => aggregate o e.1=k

/-- The lines of the screen are the flows grouped by aggregated key, and their
rates add up to the rates of the totals. -/
structure RowsAddUp (o : OptionsT) (u : Ui) : Prop where
  /-- One line for each key. -/
  nodup : (keys (lines u)).Nodup
  /-- Every flow has a line. -/
  present : ∀ e∈flows u.toCapture,aggregate o e.1∈keys (lines u)
  /-- The rates of a line times the length of the division. -/
  rates : ∀ e∈lines u,∀ j,
    e.2.recv j*historyLengthOf u j=
        (((flowsOf o u e.1).map fun f => windowSum u.historyPos f.2.recv j).sum : ℕ) ∧
      e.2.sent j*historyLengthOf u j=
        (((flowsOf o u e.1).map fun f => windowSum u.historyPos f.2.sent j).sum : ℕ)
  /-- The totals of a line. -/
  totals : ∀ e∈lines u,
    e.2.totalRecv=((flowsOf o u e.1).map fun f => f.2.totalRecv).sum ∧
      e.2.totalSent=((flowsOf o u e.1).map fun f => f.2.totalSent).sum
  /-- Lines without flows are zero. -/
  stale : ∀ e∈lines u,flowsOf o u e.1=[]→
    (∀ j,e.2.recv j=0 ∧ e.2.sent j=0) ∧ e.2.totalRecv=0 ∧ e.2.totalSent=0
  /-- All lines together. -/
  sum : ∀ j,((lines u).map fun e => e.2.recv j+e.2.sent j).sum=
    u.totals.recv j+u.totals.sent j

/-- The state fits together and agrees with some trace of packets. -/
def UiInv (u : Ui) : Prop := UiWf u ∧ ∃ f,Follows u.toCapture f

/-- A record after the analysis comes from the record before it. -/
theorem Kept.mem_flows {u' : Ui} (h : Kept u u') {e : AddrPair×HistoryType}
    (he : e∈flows u'.toCapture) : ∃ r,(e.1,r)∈flows u.toCapture ∧ SameCounts r e.2 := by
  simp only [flows,entries,h.history] at he ⊢
  obtain ⟨n,hn,rfl⟩ := List.mem_map.mp he
  exact ⟨_,List.mem_map_of_mem hn,h.records n.record⟩

/-- The history still agrees with its trace. -/
theorem Kept.follows {u' : Ui} (h : Kept u u') {f : ℕ→List Accounted}
    (hf : Follows u.toCapture f) : Follows u'.toCapture f := by
  have hkeys : keys (flows u'.toCapture)=keys (flows u.toCapture) := by
    rw [flows,flows,keys_entries,keys_entries,h.history]
  unfold Follows
  rw [h.historyPos,h.historyTotals]
  refine ⟨?_,?_,?_,hf.totals⟩
  · intro e he i hi
    obtain ⟨r,hr,hc⟩ := h.mem_flows he
    rw [hc.recv,hc.sent]
    exact hf.slots _ hr i hi
  · intro e he
    obtain ⟨r,hr,hc⟩ := h.mem_flows he
    rw [hc.lastWrite]
    exact hf.last _ hr
  · intro i hi a ha
    rw [hkeys]
    exact hf.present i hi a ha

/-- Scaling the sum of counters is the same as summing the scaled ones. -/
theorem sum_scaled (inv : Division→ℚ) (cs : List Counters) :
    (cs.map (scaled inv)).sum=scaled inv cs.sum := by
  induction cs with
  | nil => simp [scaled,Prod.ext_iff,funext_iff]
  | cons c cs ih =>
    rw [List.map_cons,List.sum_cons,List.sum_cons,ih]
    simp [scaled,Prod.ext_iff,funext_iff,add_mul]

/-- The lines are the flows grouped by aggregated key, their sums scaled. -/
structure Rated (o : OptionsT) (u : Ui) : Prop where
  /-- Every flow has a line. -/
  present : ∀ e∈flows u.toCapture,aggregate o e.1∈keys (lines u)
  /-- What a line shows. -/
  rows : ∀ e∈lines u,counters e.2=scaled (invHistLen u)
    ((flowsOf o u e.1).map fun f => flowCounters u.historyPos f.2).sum
  /-- What all lines show together. -/
  total : ((lines u).map fun e => counters e.2).sum=scaled (invHistLen u)
    ((flows u.toCapture).map fun f => flowCounters u.historyPos f.2).sum

/-- Scaling the lines that the loop has grouped. -/
theorem rated_of_grouped {o : OptionsT} {es : List (AddrPair×HostPairLine)}
    {g : HostPairLine→HostPairLine}
    (h : Grouped (fun e => aggregate o e.1) (fun e => flowCounters u.historyPos e.2) counters
      (flows u.toCapture) es)
    (hg : ∀ line,counters (g line)=scaled (invHistLen u) (counters line))
    (hl : lines u=es.map fun e => (e.1,g e.2)) : Rated o u := by
  refine ⟨?_,?_,?_⟩
  · intro e he
    rw [hl,keys,List.map_map]
    exact h.present e he
  · intro e he
    rw [hl] at he
    obtain ⟨e',hm,rfl⟩ := List.mem_map.mp he
    rw [hg,h.sums e' hm]
    rfl
  · rw [←h.sum,hl,List.map_map,←sum_scaled,List.map_map]
    refine congrArg List.sum (List.map_congr_left fun e _ => ?_)
    exact hg e.2

/-- What an unpaused analysis does before it computes the totals. -/
theorem analyseData_spec (env : Env) (hostName : AddressFamily→In6Addr→Option (List Char))
    (h : UiWf u) (hp : env.options.paused=false) :
    ∃ u₃,analyseData qsort env hostName u=calculateTotals u₃ ∧
      Kept {u with totals := HostPairLine.zero} u₃ ∧ UiWf u₃ ∧ Rated env.options u₃ := by
  have h₀ : UiWf {u with totals := HostPairLine.zero} :=
    ⟨h.capture,h.linked,h.fresh,h.length,h.elapsed⟩
  unfold analyseData
  rw [if_neg (by simp [hp])]
  generalize {u with totals := HostPairLine.zero}=u₀ at h₀ ⊢
  obtain ⟨u₁,hu₁,hk₁,hw₁,hs₁⟩ : ∃ u₁,(if env.options.freezeorder then screenHashClear u₀
      else screenHashReset (screenListClear u₀))=u₁ ∧ Kept u₀ u₁ ∧ UiWf u₁ ∧
      Shows env.options u₀ [] u₁ := by
    cases env.options.freezeorder with
    | false => exact ⟨_,rfl,screenHashReset_spec env.options u₀ h₀⟩
    | true => exact ⟨_,rfl,screenHashClear_spec env.options u₀ h₀⟩
  dsimp only
  rw [hu₁,hashItems_eq hw₁.capture.linked.addrs]
  obtain ⟨hk₂,hw₂,hs₂⟩ := analyseLoop_spec env u₀ u₁.history.nodes [] u₁ hk₁ hw₁ hs₁
  generalize u₁.history.nodes.foldl (analyseFlow env) u₁=u₂ at hk₂ hw₂ hs₂ ⊢
  obtain ⟨hk₃,hw₃,g,hg,hl⟩ := makeScreenList_spec qsort env hostName hw₂
  generalize makeScreenList qsort env hostName u₂=u₃ at hk₃ hw₃ hl ⊢
  have hk := hk₂.trans hk₃
  refine ⟨u₃,rfl,hk,hw₃,rated_of_grouped ?_ ?_ hl⟩
  · rw [List.nil_append,hk₁.history,←hk.history] at hs₂
    have hw : (fun n : Node AddrPair ℕ => flowCounters u₀.historyPos (u₀.histMem n.record))=
        fun n => flowCounters u₃.historyPos (u₃.histMem n.record) := by
      funext n
      rw [hk.historyPos,(hk.records _).flowCounters]
    rw [Shows,hw] at hs₂
    exact hs₂.map
  · intro line
    have hinv : invHistLen u₃=invHistLen u₂ := by
      funext j
      simp only [invHistLen,hk₃.historyLengthOf]
    rw [hg,hinv]

/-- Counters add up component by component. -/
theorem sum_counters (cs : List Counters) :
    cs.sum=(fun j => (cs.map fun c => c.1 j).sum,fun j => (cs.map fun c => c.2.1 j).sum,
      (cs.map fun c => c.2.2.1).sum,(cs.map fun c => c.2.2.2).sum) := by
  induction cs with
  | nil => rfl
  | cons c cs ih =>
    rw [List.sum_cons,ih]
    simp only [List.map_cons,List.sum_cons]
    rfl

/-- The contributions of a list of flows, summed up. -/
theorem sum_flowCounters (pos : Slot) (fs : List (AddrPair×HistoryType)) :
    (fs.map fun f => flowCounters pos f.2).sum=
      (fun j => (((fs.map fun f => windowSum pos f.2.recv j).sum : ℕ) : ℚ),
        fun j => (((fs.map fun f => windowSum pos f.2.sent j).sum : ℕ) : ℚ),
        (fs.map fun f => f.2.totalRecv).sum,(fs.map fun f => f.2.totalSent).sum) := by
  rw [sum_counters]
  simp only [List.map_map,Nat.cast_list_sum]
  rfl

/-- The windows of all flows add up to the windows of the totals. -/
theorem window_conserved (h : UiWf u) {f : ℕ→List Accounted} (hf : Follows u.toCapture f)
    (j : Division) :
    ((flows u.toCapture).map fun e => windowSum u.historyPos e.2.recv j).sum+
        ((flows u.toCapture).map fun e => windowSum u.historyPos e.2.sent j).sum=
      windowSum u.historyPos u.historyTotals.recv j+
        windowSum u.historyPos u.historyTotals.sent j := by
  unfold windowSum
  induction List.range (historyDivs j) with
  | nil => simp
  | cons i is ih =>
    have hc := conserved_of_follows h.capture hf (histIdx u.historyPos i)
    rw [List.sum_map_add] at hc
    simp only [List.map_cons,List.sum_cons,List.sum_map_add]
    omega

/-- The rates of a line are the scaled sums over its flows, written out. -/
theorem Rated.line {o : OptionsT} (h : Rated o u) {e : AddrPair×HostPairLine} (he : e∈lines u) :
    (∀ j,e.2.recv j=((((flowsOf o u e.1).map fun f => windowSum u.historyPos f.2.recv j).sum : ℕ) :
          ℚ)*invHistLen u j ∧
        e.2.sent j=((((flowsOf o u e.1).map fun f => windowSum u.historyPos f.2.sent j).sum : ℕ) :
          ℚ)*invHistLen u j) ∧
      e.2.totalRecv=((flowsOf o u e.1).map fun f => f.2.totalRecv).sum ∧
      e.2.totalSent=((flowsOf o u e.1).map fun f => f.2.totalSent).sum := by
  have hc := h.rows e he
  rw [sum_flowCounters] at hc
  simp only [counters,scaled,Prod.mk.injEq] at hc
  exact ⟨fun j => ⟨congrFun hc.1 j,congrFun hc.2.1 j⟩,hc.2.2⟩

/-- The rates of all lines together, written out. -/
theorem Rated.sum {o : OptionsT} (h : Rated o u) (j : Division) :
    ((lines u).map fun e => e.2.recv j+e.2.sent j).sum=
      ((((flows u.toCapture).map fun f => windowSum u.historyPos f.2.recv j).sum+
        ((flows u.toCapture).map fun f => windowSum u.historyPos f.2.sent j).sum : ℕ) : ℚ)*
          invHistLen u j := by
  have hc := h.total
  rw [sum_counters,sum_flowCounters] at hc
  simp only [counters,scaled,Prod.mk.injEq,List.map_map] at hc
  rw [List.sum_map_add,Nat.cast_add,add_mul]
  exact congrArg₂ (·+·) (congrFun hc.1 j) (congrFun hc.2.1 j)

/-- Computing the totals of a rated screen makes the rows add up. -/
theorem Rated.rowsAddUp {o : OptionsT} (h : Rated o u) (hw : UiWf u) {f : ℕ→List Accounted}
    (hf : Follows u.toCapture f) (ht : u.totals=HostPairLine.zero) :
    RowsAddUp o (calculateTotals u) := by
  obtain ⟨hcap,hsh,hlm,-,hel,hT⟩ := calculateTotals_spec u
  generalize calculateTotals u=v at hcap hsh hlm hel hT ⊢
  have hlines : lines v=lines u := by rw [lines,hsh,hlm,lines]
  have hlen : historyLengthOf v=historyLengthOf u := by
    funext j
    simp only [historyLengthOf,hcap,hel]
  have hflows (k : AddrPair) : flowsOf o v k=flowsOf o u k := by rw [flowsOf,hcap,flowsOf]
  have hpos := historyLengthOf_pos hw
  have hinv (j : Division) : invHistLen u j=1/historyLengthOf u j := if_pos (hpos j)
  have hone (j : Division) : invHistLen u j*historyLengthOf u j=1 := by
    rw [hinv,one_div,inv_mul_cancel₀ (hpos j).ne']
  refine ⟨?_,?_,?_,?_,?_,?_⟩
  · rw [hlines]
    exact hw.nodup
  · rw [hlines,hcap]
    exact h.present
  · intro e he j
    rw [hlines] at he
    obtain ⟨h1,h2⟩ := (h.line he).1 j
    rw [hlen,hflows,hcap,h1,h2,mul_assoc,hone,mul_one,mul_assoc,hone,mul_one]
    exact ⟨rfl,rfl⟩
  · intro e he
    rw [hlines] at he
    rw [hflows]
    exact (h.line he).2
  · intro e he hnil
    rw [hlines] at he
    rw [hflows] at hnil
    have hr := h.line he
    rw [hnil] at hr
    simpa using hr
  · intro j
    have hl := hpos j
    rw [hlines,h.sum,window_conserved hw hf,hT,accumulate_eq,ht,hinv]
    simp only [HostPairLine.divide,HostPairLine.zero,gt_iff_lt,hl,if_true,zero_add,Nat.cast_add]
    ring

/-- Accounted packets by age of their slot; only the capture side moves them. -/
def uiSlotStep (f : ℕ→List Accounted) : UiEvent→ℕ→List Accounted
  | .capture e => slotStep f e
  | .elapsed _ => f
  | .analyse .. => f

/-- Every call keeps the state well formed and in agreement with its trace. -/
theorem uiStep_follows {f : ℕ→List Accounted} (hw : UiWf u) (hf : Follows u.toCapture f)
    (e : UiEvent) :
    UiWf (uiStep qsort u e) ∧ Follows (uiStep qsort u e).toCapture (uiSlotStep f e) := by
  cases e with
  | capture e =>
    obtain ⟨hc,hf'⟩ := step_follows hw.capture hf e
    refine ⟨⟨hc,hw.linked,hw.fresh,?_,hw.elapsed⟩,hf'⟩
    exact le_trans hw.length (step_historyLen hw.capture e)
  | elapsed diff =>
    refine ⟨⟨hw.capture,hw.linked,hw.fresh,hw.length,?_⟩,hf⟩
    dsimp only [uiStep,setSlotElapsed,resolution]
    split_ifs <;> linarith
  | analyse env hostName =>
    cases hp : env.options.paused with
    | true =>
      have hs : uiStep qsort u (.analyse env hostName)=u := if_pos hp
      rw [hs]
      exact ⟨hw,hf⟩
    | false =>
      obtain ⟨u₃,he,hk,hw₃,-⟩ := analyseData_spec qsort env hostName hw hp
      obtain ⟨hcap,hsh,-,hbrk,hel,-⟩ := calculateTotals_spec u₃
      have hf₃ : Follows u₃.toCapture f := hk.follows hf
      rw [uiStep,he]
      refine ⟨⟨?_,?_,?_,?_,?_⟩,by rw [hcap]; exact hf₃⟩
      · rw [hcap,hsh]
        exact hw₃.capture
      · rw [hsh]
        exact hw₃.linked
      · rw [hsh,hbrk]
        exact hw₃.fresh
      · rw [hcap]
        exact hw₃.length
      · rw [hel]
        exact hw₃.elapsed

/-- Every call keeps the state well formed and in agreement with some trace. -/
theorem uiStep_inv (h : UiInv u) (e : UiEvent) : UiInv (uiStep qsort u e) := by
  obtain ⟨hw,f,hf⟩ := h
  obtain ⟨hw',hf'⟩ := uiStep_follows qsort hw hf e
  exact ⟨hw',_,hf'⟩

/-- The start agrees with the empty trace. -/
theorem uiInit_follows : UiWf initUi ∧ Follows initUi.toCapture fun _ => [] := by
  have ha : addrs initUi.screenHash=[] := by simp [addrs,initUi]
  refine ⟨⟨?_,linked_empty,by simp [initUi],le_refl 1,le_refl 0⟩,?_⟩
  · rw [ha]
    exact wf_init
  · have hfl : flows initUi.toCapture=[] := flows_init
    rw [Follows,hfl]
    exact tracks_init

/-- Every run keeps the invariant of the screen. -/
theorem uiRun_inv (es : List UiEvent) : UiInv (uiRun qsort es) := by
  have hinit : UiInv initUi := ⟨uiInit_follows.1,_,uiInit_follows.2⟩
  have hrun (u : Ui) (h : UiInv u) : UiInv (es.foldl (uiStep qsort) u) := by
    induction es generalizing u with
    | nil => exact h
    | cons e es ih => exact ih _ (uiStep_inv qsort h e)
  exact hrun initUi hinit

/-- After any run, an unpaused analysis leaves one line for each aggregated
key, every line holds the plain sums of its flows, and the lines add up to the
totals. -/
theorem displayed_rows_add_up (es : List UiEvent) (env : Env)
    (hostName : AddressFamily→In6Addr→Option (List Char)) (hp : env.options.paused=false) :
    RowsAddUp env.options (analyseData qsort env hostName (uiRun qsort es)) := by
  obtain ⟨hw,f,hf⟩ := uiRun_inv qsort es
  obtain ⟨u₃,he,hk,hw₃,hr⟩ := analyseData_spec qsort env hostName hw hp
  have hf₃ : Follows u₃.toCapture f := hk.follows hf
  rw [he]
  exact hr.rowsAddUp hw₃ hf₃ hk.totals

/-- Three flows, a change to frozen order and to merged sources, and a rotation. -/
theorem displayed_rows_add_up_frozen :
    let flow (src : InAddr) : UiEvent :=
      .capture (.packet bareEnv (ip4Packet ipprotoUdp src ![10,0,0,9]) 1)
    let frozen : Env := {bareEnv with
      options := {bareEnv.options with freezeorder := true,aggregateSrc := true}}
    let es := [flow ![10,0,0,1],flow ![10,0,0,2],.analyse bareEnv fun _ _ => none,
      .capture .rotate,.elapsed (1/2),flow ![10,0,0,3]]
    RowsAddUp frozen.options
      (analyseData (fun _ items => items) frozen (fun _ _ => none) (uiRun (fun _ items => items) es)) :=
  displayed_rows_add_up _ _ _ _ rfl

end IftopColor.ScreenTotals
