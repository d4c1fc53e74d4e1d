import IftopColor.BusiestRows
import IftopColor.PeakMaxima

/-!
# What the display remembers

Lines live from one analysis to the next, and the table of lines takes its nodes from the same
pool as the history. Unfrozen, nothing of this shows: what is displayed depends on the packets, the
rotations and the clock, but not on what was displayed before. Frozen, the order is all that is
remembered: every row keeps its pair of hosts and goes on showing the traffic of that pair.
-/

namespace IftopColor.DisplayMemory

open ChainTable RecordStore AddrHash Options PacketDirection History FlowAccounting Screen
open ScreenTotals FrozenPeaks PeakMaxima ScreenList StableInsertion BatchInsertion LineOrder
open BusiestRows

/-- A record without its process. -/
def anonymous (r : HistoryType) : HistoryType :=
  {r with procResolved := false,procPid := 0,procName := []}

/-- The flows without their processes. -/
def tallies (s : Capture) : List (AddrPair×HistoryType) :=
  (flows s).map fun e => (e.1,anonymous e.2)

/-- The tallies have the same keys as the flows. -/
theorem keys_tallies (s : Capture) : keys (tallies s)=keys (flows s) := by
  rw [tallies,keys,List.map_map]
  rfl

/-- Two capture sides that have counted the same packets, wherever they keep them. -/
structure SameCapture (s s' : Capture) : Prop where
  /-- The flows. -/
  flows : (tallies s).Perm (tallies s')
  /-- The totals of the history. -/
  historyTotals : s'.historyTotals=s.historyTotals
  /-- The ring position. -/
  historyPos : s'.historyPos=s.historyPos
  /-- The number of slots in use. -/
  historyLen : s'.historyLen=s.historyLen

/-- Two states that have counted the same packets at the same time, whatever they display. -/
structure Alike (u u' : Ui) : Prop where
  /-- The capture sides. -/
  capture : SameCapture u.toCapture u'.toCapture
  /-- Time in the current slot. -/
  slotElapsed : u'.slotElapsed=u.slotElapsed

variable {s s' s'' : Capture} {frame frame' : List ℕ} {u u' u'' : Ui}

/-- A capture side has counted what it has counted. -/
theorem SameCapture.refl (s : Capture) : SameCapture s s := ⟨.refl _,rfl,rfl,rfl⟩

/-- Either has counted what the other has. -/
theorem SameCapture.symm (h : SameCapture s s') : SameCapture s' s :=
  ⟨h.flows.symm,h.historyTotals.symm,h.historyPos.symm,h.historyLen.symm⟩

/-- Captures that have counted what a third one has have counted the same. -/
theorem SameCapture.trans (h : SameCapture s s') (h' : SameCapture s' s'') : SameCapture s s'' :=
  ⟨h.flows.trans h'.flows,h'.historyTotals.trans h.historyTotals,h'.historyPos.trans h.historyPos,
    h'.historyLen.trans h.historyLen⟩

/-- A state has counted the same as itself. -/
theorem Alike.refl (u : Ui) : Alike u u := ⟨.refl _,rfl⟩

/-- If one state is like another, the other is like it. -/
theorem Alike.symm (h : Alike u u') : Alike u' u := ⟨h.capture.symm,h.slotElapsed.symm⟩

/-- States like a third one are alike. -/
theorem Alike.trans (h : Alike u u') (h' : Alike u' u'') : Alike u u'' :=
  ⟨h.capture.trans h'.capture,h'.slotElapsed.trans h.slotElapsed⟩

/-- Records that differ in their process only. -/
theorem anonymous_eq {r r' : HistoryType} (h : SameCounts r r') : anonymous r'=anonymous r := by
  simp only [anonymous,h.recv,h.sent,h.totalRecv,h.totalSent,h.lastWrite]

/-- What keeps all that an analysis reads has counted nothing. -/
theorem Alike.of_kept (h : Kept u u') : Alike u u' := by
  refine ⟨⟨?_,h.historyTotals,h.historyPos,h.historyLen⟩,h.slotElapsed⟩
  have hsame : tallies u'.toCapture=tallies u.toCapture := by
    simp only [tallies,flows,entries,h.history,List.map_map]
    refine List.map_congr_left fun n _ => ?_
    exact Prod.ext rfl (anonymous_eq (h.records n.record))
  rw [hsame]

/-- A packet is counted in the tallies. -/
theorem tallies_upsert (pos : Slot) (a : Accounted) (z : HistoryType)
    (es : List (AddrPair×HistoryType)) :
    (upsert a.key z (HistoryType.credit pos a) es).map (fun e => (e.1,anonymous e.2))=
      upsert a.key (anonymous z) (HistoryType.credit pos a)
        (es.map fun e => (e.1,anonymous e.2)) := by
  refine map_upsert fun r => ?_
  unfold HistoryType.credit
  split <;> rfl

/-- A new record is blank, but for its process. -/
theorem anonymous_newRecord (env : Env) (ap : AddrPair) :
    anonymous (newRecord env ap)=HistoryType.zero := by
  unfold newRecord
  split
  · split <;> rfl
  · rfl

/-- Leaving out the processes and dropping the old flows can be done in either order. -/
theorem tallies_expire (pos : Slot) (es : List (AddrPair×HistoryType)) :
    (expire pos es).map (fun e => (e.1,anonymous e.2))=
      expire pos (es.map fun e => (e.1,anonymous e.2)) := by
  unfold expire
  rw [List.filter_map,List.map_map,List.map_map]
  rfl

/-- A packet is counted on both sides. -/
theorem SameCapture.packet (h : SameCapture s s') (hw : Wf frame s) (hw' : Wf frame' s')
    (env : Env) (a : Accounted) :
    SameCapture (recordPacket env a s) (recordPacket env a s') := by
  obtain ⟨-,hf⟩ := recordPacket_spec env a hw
  obtain ⟨-,hf'⟩ := recordPacket_spec env a hw'
  obtain ⟨hp,hl,ht⟩ := recordPacket_ring env a s
  obtain ⟨hp',hl',ht'⟩ := recordPacket_ring env a s'
  refine ⟨?_,?_,?_,?_⟩
  · have ha := hf.map fun e => (e.1,anonymous e.2)
    have ha' := hf'.map fun e => (e.1,anonymous e.2)
    rw [tallies_upsert,anonymous_newRecord] at ha ha'
    rw [h.historyPos] at ha'
    exact (ha.trans (upsert_perm h.flows)).trans ha'.symm
  · rw [ht,ht',h.historyTotals,h.historyPos]
  · rw [hp,hp',h.historyPos]
  · rw [hl,hl',h.historyLen]

/-- Captures that have counted the same still have after both rotate. -/
theorem SameCapture.rotate (h : SameCapture s s') (hw : Wf frame s) (hw' : Wf frame' s') :
    SameCapture (historyRotate s) (historyRotate s') := by
  obtain ⟨-,hf,ht,hp,hl⟩ := historyRotate_spec hw
  obtain ⟨-,hf',ht',hp',hl'⟩ := historyRotate_spec hw'
  refine ⟨?_,?_,?_,?_⟩
  · rw [tallies,tallies,hf,hf',tallies_expire,tallies_expire,h.historyPos]
    exact (h.flows.filter _).map _
  · rw [ht,ht',h.historyTotals,h.historyPos]
  · rw [hp,hp',h.historyPos]
  · rw [hl,hl',h.historyLen]

/-- A call of the capture side does the same to both. -/
theorem SameCapture.step (h : SameCapture s s') (hw : Wf frame s) (hw' : Wf frame' s')
    (e : Event) : SameCapture (FlowAccounting.step s e) (FlowAccounting.step s' e) := by
  cases e with
  | packet env iptr hwDir =>
    simp only [FlowAccounting.step,handleIpPacket]
    cases account env iptr hwDir with
    | none => exact h
    | some a => exact h.packet hw hw' env a
  | rotate => exact h.rotate hw hw'

section Runs

variable (qsort : (ℕ→ℕ→Bool)→List ℕ→List ℕ)

/-- An analysis counts nothing, so the state after it is like the one before. -/
theorem alike_analyseData (env : Env) (hostName : AddressFamily→ In6Addr→Option (List Char))
    (hw : UiWf u) : Alike u (analyseData qsort env hostName u) := by
  cases hp : env.options.paused with
  | true =>
    have hsame : analyseData qsort env hostName u=u := if_pos hp
    rw [hsame]
    exact .refl u
  | false =>
    obtain ⟨u₃,he,hk,-,-⟩ := analyseData_spec qsort env hostName hw hp
    obtain ⟨hcap,-,-,-,hel,-⟩ := calculateTotals_spec u₃
    have hkept := Alike.of_kept hk
    rw [he]
    refine ⟨?_,hel.trans hkept.slotElapsed⟩
    rw [hcap]
    exact hkept.capture

/-- Calls other than analyses. -/
def isInput : UiEvent→Bool
  | .capture _ => true
  | .elapsed _ => true
  | .analyse .. => false

/-- Without its analyses a run counts the same. -/
theorem alike_inputs (es : List UiEvent) (h : Alike u u') (hi : UiInv u) (hi' : UiInv u') :
    Alike (es.foldl (uiStep qsort) u) ((es.filter isInput).foldl (uiStep qsort) u') := by
  induction es generalizing u u' with
  | nil => exact h
  | cons e es ih =>
    have hnext := uiStep_inv qsort hi e
    have hnext' := uiStep_inv qsort hi' e
    cases e with
    | capture e =>
      exact ih ⟨h.capture.step hi.1.capture hi'.1.capture e,h.slotElapsed⟩ hnext hnext'
    | elapsed diff => exact ih ⟨h.capture,rfl⟩ hnext hnext'
    | analyse env hostName =>
      have hsame := alike_analyseData qsort env hostName hi.1
      exact ih (hsame.symm.trans h) hnext hi'

/-- Runs of the same packets, rotations and times. -/
theorem alike_uiRun {es es' : List UiEvent} (h : es.filter isInput=es'.filter isInput) :
    Alike (uiRun qsort es) (uiRun qsort es') := by
  have hinit := uiRun_inv qsort []
  have hall := alike_inputs qsort es (.refl initUi) hinit hinit
  have hall' := alike_inputs qsort es' (.refl initUi) hinit hinit
  rw [h] at hall
  exact hall.trans hall'.symm

end Runs

/-- The counters that the row of a pair of hosts shows. -/
def shown (o : OptionsT) (u : Ui) (k : AddrPair) : Counters :=
  scaled (invHistLen u)
    ((flowsOf o u k).map fun f => flowCounters u.historyPos f.2).sum

/-- What a line shows is computed from the tallies. -/
theorem shown_eq (o : OptionsT) (u : Ui) (k : AddrPair) :
    shown o u k=scaled (invHistLen u) (((tallies u.toCapture).filter fun e => aggregate o e.1=k).map
      fun e => flowCounters u.historyPos e.2).sum := by
  rw [shown,tallies,List.filter_map,List.map_map]
  rfl

/-- The lengths of the divisions are the same. -/
theorem Alike.historyLengthOf (h : Alike u u') :
    Screen.historyLengthOf u'=Screen.historyLengthOf u := by
  funext j
  simp only [Screen.historyLengthOf,h.capture.historyLen,h.slotElapsed]

/-- States that have counted alike show the same. -/
theorem Alike.shown (h : Alike u u') (o : OptionsT) (k : AddrPair) :
    DisplayMemory.shown o u' k=DisplayMemory.shown o u k := by
  have hinv : invHistLen u'=invHistLen u := by
    funext j
    simp only [invHistLen,h.historyLengthOf]
  have hperm := (h.capture.flows.filter fun e => aggregate o e.1=k).map
    fun e => flowCounters u.historyPos e.2
  rw [shown_eq,shown_eq,hinv,h.capture.historyPos,hperm.sum_eq]

/-- Every line carries its key. -/
def Labelled (u : Ui) : Prop := ∀ e∈lines u,e.2.ap=e.1

/-- A round of the loop keeps the labels. -/
theorem Labelled.analyseFlow (h : Labelled u) (hw : UiWf u) (env : Env) (n : Node AddrPair ℕ) :
    Labelled (Screen.analyseFlow env u n) := by
  intro e he
  have hp := (analyseFlow_spec env hw n).2.2
  rcases mem_upsert.mp (hp.subset he) with ⟨-,he⟩|⟨hk,⟨line,he,hl⟩|⟨-,hl⟩⟩
  · exact h e he
  · rw [hl,addRound_ap,hk]
    exact h _ he
  · rw [hl,addRound_ap,hk]

/-- The loop over the flows keeps labels. -/
theorem Labelled.analyseLoop (h : Labelled u) (hw : UiWf u) (env : Env)
    (ns : List (Node AddrPair ℕ)) : Labelled (ns.foldl (Screen.analyseFlow env) u) := by
  induction ns generalizing u with
  | nil => exact h
  | cons n ns ih => exact ih (h.analyseFlow hw env n) (analyseFlow_spec env hw n).2.1

/-- A change of all lines that leaves their keys keeps labels. -/
theorem Labelled.map {f : HostPairLine→HostPairLine} (h : Labelled u)
    (hf : ∀ line,(f line).ap=line.ap) (hl : lines u'=(lines u).map fun e => (e.1,f e.2)) :
    Labelled u' := by
  intro e he
  rw [hl] at he
  obtain ⟨e',hm,rfl⟩ := List.mem_map.mp he
  exact (hf e'.2).trans (h e' hm)

section Analyse

variable (qsort : (ℕ→ℕ→Bool)→List ℕ→List ℕ) (env : Env)
  (hostName : AddressFamily→ In6Addr→Option (List Char))

/-- Building the list keeps labels. -/
theorem Labelled.makeScreenList (h : Labelled u) (hw : UiWf u) :
    Labelled (Screen.makeScreenList qsort env hostName u) := by
  have hitems : hashItems u.screenHash=u.screenHash.nodes := hashItems_eq hw.linked.addrs
  obtain ⟨-,hw₁,hl₁⟩ := forEachLine_spec (HostPairLine.scale (invHistLen u)) hw hitems
  have h₁ := h.map (f:=HostPairLine.scale (invHistLen u)) (fun _ => rfl) hl₁
  unfold Screen.makeScreenList
  dsimp only
  split
  · exact h₁
  · split
    · obtain ⟨-,hw₂,hl₂⟩ := forEachLine_spec (HostPairLine.cacheName env.options hostName) hw₁
        hitems
      obtain ⟨-,-,hl₃⟩ := sortedListInsertBatch_spec qsort env
        ((hashItems u.screenHash).map Node.record) hw₂
      have h₂ := h₁.map (f:=HostPairLine.cacheName env.options hostName) (fun _ => rfl) hl₂
      rw [Labelled,hl₃]
      exact h₂
    · obtain ⟨-,-,hl₃⟩ := sortedListInsertBatch_spec qsort env
        ((hashItems u.screenHash).map Node.record) hw₁
      rw [Labelled,hl₃]
      exact h₁

/-- An analysis keeps labels. -/
theorem Labelled.analyseData (h : Labelled u) (hw : UiWf u) :
    Labelled (Screen.analyseData qsort env hostName u) := by
  unfold Screen.analyseData
  split
  · exact h
  · have hw₀ : UiWf {u with totals := HostPairLine.zero} :=
      ⟨hw.capture,hw.linked,hw.fresh,hw.length,hw.elapsed⟩
    have h₀ : Labelled {u with totals := HostPairLine.zero} := h
    generalize {u with totals := HostPairLine.zero}=u₀ at hw₀ h₀
    dsimp only
    obtain ⟨u₁,hu₁,hw₁,h₁⟩ : ∃ u₁,(if env.options.freezeorder then screenHashClear u₀
        else screenHashReset (screenListClear u₀))=u₁ ∧ UiWf u₁ ∧ Labelled u₁ := by
      cases env.options.freezeorder with
      | true =>
        obtain ⟨-,hw₁,hl₁⟩ := forEachLine_spec HostPairLine.clear hw₀ (hashItems_eq hw₀.linked.addrs)
        exact ⟨_,rfl,hw₁,h₀.map (f:=HostPairLine.clear) (fun _ => rfl) hl₁⟩
      | false =>
        have hnone : lines (screenHashReset (screenListClear u₀))=[] := by
          simp [lines,screenHashReset,addrHashDeleteAllFree,entries]
        have hlab : Labelled (screenHashReset (screenListClear u₀)) := by
          intro e he
          rw [hnone] at he
          exact absurd he List.not_mem_nil
        exact ⟨_,rfl,(screenHashReset_spec env.options u₀ hw₀).2.1,hlab⟩
    rw [hu₁]
    have h₂ := h₁.analyseLoop hw₁ env (hashItems u₁.history)
    have hw₂ := analyseLoop_wf hw₁ env (hashItems u₁.history)
    have h₃ := h₂.makeScreenList qsort env hostName hw₂
    generalize Screen.makeScreenList qsort env hostName _=u₃ at h₃
    obtain ⟨-,hh,hm,-⟩ := calculateTotals_spec u₃
    rw [Labelled,lines,hh,hm]
    exact h₃

/-- Every line shows the flows of its pair of hosts. -/
theorem analyseData_shown (hw : UiWf u) (hp : env.options.paused=false) :
    ∀ e∈lines (Screen.analyseData qsort env hostName u),
      counters e.2=shown env.options u e.1 := by
  obtain ⟨u₃,he,hk,-,hr⟩ := analyseData_spec qsort env hostName hw hp
  obtain ⟨-,hh,hm,-⟩ := calculateTotals_spec u₃
  have hlines : lines (calculateTotals u₃)=lines u₃ := by rw [lines,hh,hm,lines]
  have halike := Alike.of_kept hk
  rw [he,hlines]
  intro e hme
  exact (hr.rows e hme).trans (halike.shown env.options e.1)

/-- Unfrozen, there are lines for the flows that there are, and no others. -/
theorem analyseData_keys (hw : UiWf u) (hp : env.options.paused=false)
    (hf : env.options.freezeorder=false) (k : AddrPair) :
    k∈keys (lines (Screen.analyseData qsort env hostName u)) ↔
      ∃ k'∈keys (flows u.toCapture),aggregate env.options k'=k := by
  constructor
  · intro hk
    obtain ⟨u₁,hw₁,he₁,-,hu⟩ := analyseData_emptied qsort env hostName hw hp hf
    rw [hu] at hk
    have hnone : Stems env.options [] (lines u₁) := by simp [Stems,he₁]
    have hst := analyseLoop_stems env u.history.nodes [] u₁ hw₁ hnone
    have hw₂ := analyseLoop_wf hw₁ env u.history.nodes
    generalize u.history.nodes.foldl (analyseFlow env) u₁=u₂ at hst hw₂ hk
    obtain ⟨-,-,g,-,hl₃⟩ := makeScreenList_spec qsort env hostName hw₂
    obtain ⟨-,hh,hm,-⟩ := calculateTotals_spec (Screen.makeScreenList qsort env hostName u₂)
    have hkeys : keys (lines (calculateTotals (Screen.makeScreenList qsort env hostName u₂)))=
        keys (lines u₂) := by
      rw [lines,hh,hm,←lines,hl₃,keys,List.map_map]
      rfl
    rw [hkeys] at hk
    obtain ⟨e,he,rfl⟩ := List.mem_map.mp hk
    obtain ⟨-,n,hn,hkey⟩ := hst e he
    rw [List.nil_append] at hn
    refine ⟨n.key,?_,hkey⟩
    rw [flows,keys_entries]
    exact List.mem_map_of_mem hn
  · rintro ⟨k',hk',rfl⟩
    exact analyseData_present qsort env hostName hw hp k' hk'

end Analyse

/-- Every run keeps each line labelled with its key. -/
theorem labelled_foldl (qsort : (ℕ→ℕ→Bool)→List ℕ→List ℕ) (es : List UiEvent) (h : Labelled u)
    (hi : UiInv u) : Labelled (es.foldl (uiStep qsort) u) := by
  induction es generalizing u with
  | nil => exact h
  | cons e es ih =>
    have hnext := uiStep_inv qsort hi e
    cases e with
    | capture e => exact ih h hnext
    | elapsed diff => exact ih h hnext
    | analyse env hostName => exact ih (h.analyseData qsort env hostName hi.1) hnext

/-- The lines of every run carry their keys. -/
theorem labelled_uiRun (qsort : (ℕ→ℕ→Bool)→List ℕ→List ℕ) (es : List UiEvent) :
    Labelled (uiRun qsort es) := by
  refine labelled_foldl qsort es ?_ (uiRun_inv qsort [])
  intro e he
  have hnone : lines initUi=[] := by simp [lines,initUi,entries]
  rw [hnone] at he
  exact absurd he List.not_mem_nil

/-- The rows of the list: pairs of hosts with what is shown of them. -/
def rows (u : Ui) : List (AddrPair×Counters) :=
  u.screenList.map fun a => ((u.lineMem a).ap,counters (u.lineMem a))

/-- The list is the same, and all lines are still there. -/
structure Persists (u u' : Ui) : Prop where
  /-- The list. -/
  screenList : u'.screenList=u.screenList
  /-- The lines with their keys. -/
  lines : ∀ n∈u.screenHash.nodes,∃ n'∈u'.screenHash.nodes,n'.key=n.key ∧ n'.record=n.record

/-- If nothing happens, the lines persist. -/
theorem Persists.refl (u : Ui) : Persists u u := ⟨rfl,fun n hn => ⟨n,hn,rfl,rfl⟩⟩

/-- What persists through two steps persists through both together. -/
theorem Persists.trans (h : Persists u u') (h' : Persists u' u'') : Persists u u'' := by
  refine ⟨h'.screenList.trans h.screenList,fun n hn => ?_⟩
  obtain ⟨n',hn',hk,hr⟩ := h.lines n hn
  obtain ⟨n'',hn'',hk',hr'⟩ := h'.lines n' hn'
  exact ⟨n'',hn'',hk'.trans hk,hr'.trans hr⟩

/-- The loop over the flows may add lines, and those that were there persist. -/
theorem analyseLoop_persists (env : Env) (ns : List (Node AddrPair ℕ)) (u : Ui) :
    Persists u (ns.foldl (analyseFlow env) u) := by
  induction ns generalizing u with
  | nil => exact .refl u
  | cons n ns ih =>
    refine Persists.trans ⟨(analyseFlow_list env u n).1,fun m hm => ?_⟩ (ih _)
    unfold analyseFlow findOrCreateLine
    cases addrHashFind u.screenHash (aggregate env.options n.key) with
    | some line => exact ⟨m,hm,rfl,rfl⟩
    | none =>
      have hnodes := nodes_push u.screenHash (u.nodePool.alloc poolBlockSize).1
        (aggregate env.options n.key) u.lineBrk
      exact ⟨m,hnodes.symm.subset (List.mem_cons_of_mem _ hm),rfl,rfl⟩

/-- Calls that leave the order of the list frozen. -/
def Frozen : UiEvent→Prop
  | .capture _ => True
  | .elapsed _ => True
  | .analyse env _ => env.options.paused=true ∨ env.options.freezeorder=true

section Frozen

variable (qsort : (ℕ→ℕ→Bool)→List ℕ→List ℕ)

/-- Through an analysis that is paused or frozen the lines persist. -/
theorem analyseData_persists {env : Env} (hf : env.options.paused=true ∨ env.options.freezeorder=true)
    (hostName : AddressFamily→ In6Addr→Option (List Char)) (u : Ui) :
    Persists u (analyseData qsort env hostName u) := by
  cases hp : env.options.paused with
  | true =>
    have hsame : analyseData qsort env hostName u=u := if_pos hp
    rw [hsame]
    exact .refl u
  | false =>
    have hfreeze : env.options.freezeorder=true := hf.resolve_left (by simp [hp])
    unfold analyseData
    rw [if_neg (by simp [hp])]
    dsimp only
    rw [if_pos hfreeze]
    have h₁ : Persists u (screenHashClear {u with totals := HostPairLine.zero}) :=
      ⟨rfl,fun n hn => ⟨n,hn,rfl,rfl⟩⟩
    generalize screenHashClear {u with totals := HostPairLine.zero}=u₁ at h₁ ⊢
    have h₂ := h₁.trans (analyseLoop_persists env (hashItems u₁.history) u₁)
    generalize (hashItems u₁.history).foldl (analyseFlow env) u₁=u₂ at h₂ ⊢
    obtain ⟨hl₃,hh₃⟩ := makeScreenList_frozen qsort env hostName u₂ hfreeze
    obtain ⟨hl₄,hh₄⟩ := calculateTotals_list (makeScreenList qsort env hostName u₂)
    refine h₂.trans ⟨hl₄.trans hl₃,fun n hn => ⟨n,?_,rfl,rfl⟩⟩
    rw [hh₄,hh₃]
    exact hn

/-- Through calls that are paused or frozen the lines persist. -/
theorem persists_foldl {es : List UiEvent} (h : ∀ e∈es,Frozen e) (u : Ui) :
    Persists u (es.foldl (uiStep qsort) u) := by
  induction es generalizing u with
  | nil => exact .refl u
  | cons e es ih =>
    have hrest := ih fun e he => h e (List.mem_cons_of_mem _ he)
    have hone : Persists u (uiStep qsort u e) := by
      cases e with
      | capture e => exact ⟨rfl,fun n hn => ⟨n,hn,rfl,rfl⟩⟩
      | elapsed diff => exact ⟨rfl,fun n hn => ⟨n,hn,rfl,rfl⟩⟩
      | analyse env hostName => exact analyseData_persists qsort (h _ List.mem_cons_self) hostName u
    exact hone.trans (hrest _)

/-- A node in the table of lines stands for the line that its record points to. -/
theorem mem_lines {n : Node AddrPair ℕ} (hn : n∈u.screenHash.nodes) :
    (n.key,u.lineMem n.record)∈lines u :=
  List.mem_map_of_mem hn

/-- While the order is frozen or the display is paused, the rows keep their pairs of hosts and
their places, and no pair is added, whatever packets come and however the aggregation changes; what
every row shows is the present traffic of its pair. -/
theorem frozen_rows (hq : ∀ compare items,(qsort compare items).Perm items) (es : List UiEvent)
    {fs : List UiEvent} (hfs : ∀ e∈fs,Frozen e) (env : Env)
    (hostName : AddressFamily→ In6Addr→Option (List Char)) (hp : env.options.paused=false)
    (hf : env.options.freezeorder=true) :
    rows (analyseData qsort env hostName (uiRun qsort (es++fs)))=
      (rows (uiRun qsort es)).map fun row =>
        (row.1,shown env.options (uiRun qsort (es++fs)) row.1) := by
  have hi := uiRun_inv qsort (es++fs)
  have hlab := labelled_uiRun qsort es
  have hlab' := (labelled_uiRun qsort (es++fs)).analyseData qsort env hostName hi.1
  have hshown := analyseData_shown qsort env hostName hi.1 hp
  have hstep := uiRun_inStep qsort hq es
  have hpers : Persists (uiRun qsort es)
      (analyseData qsort env hostName (uiRun qsort (es++fs))) := by
    have hfold : uiRun qsort (es++fs)=fs.foldl (uiStep qsort) (uiRun qsort es) := List.foldl_append
    have hrun := persists_foldl qsort hfs (uiRun qsort es)
    rw [←hfold] at hrun
    exact hrun.trans (analyseData_persists qsort (.inr hf) hostName _)
  generalize analyseData qsort env hostName (uiRun qsort (es++fs))=u' at hlab' hshown hpers ⊢
  rw [rows,rows,hpers.screenList,List.map_map]
  refine List.map_congr_left fun a ha => ?_
  obtain ⟨n,hn,rfl⟩ := List.mem_map.mp (hstep.owned a ha)
  obtain ⟨n',hn',hk,hr⟩ := hpers.lines n hn
  have hap : ((uiRun qsort es).lineMem n.record).ap=n.key := hlab _ (mem_lines hn)
  have hap' : (u'.lineMem n'.record).ap=n'.key := hlab' _ (mem_lines hn')
  have hc := hshown _ (mem_lines hn')
  rw [hr] at hap' hc
  simp only [Function.comp,hap,hap',hk,hc]

end Frozen

/-- A conversation of one packet with a host. -/
def flowFrom (src : InAddr) : UiEvent :=
  .capture (.packet bareEnv (ip4Packet ipprotoUdp src ![10,0,0,9]) 1)

/-- Settings with a frozen order, and the sources merged. -/
def frozenEnv : Env := {bareEnv with
  options := {bareEnv.options with freezeorder := true,aggregateSrc := true}}

/-- Two rows are frozen before a third host sends. -/
theorem frozen_rows_third :
    let es := [flowFrom ![10,0,0,1],flowFrom ![10,0,0,2],.analyse bareEnv fun _ _ => none]
    let fs := [flowFrom ![10,0,0,3],.analyse frozenEnv fun _ _ => none]
    let sort : (ℕ→ℕ→Bool)→List ℕ→List ℕ := fun _ items => items
    rows (analyseData sort frozenEnv (fun _ _ => none) (uiRun sort (es++fs)))=
      (rows (uiRun sort es)).map fun row =>
        (row.1,shown frozenEnv.options (uiRun sort (es++fs)) row.1) := by
  have hfs : ∀ e∈[flowFrom ![10,0,0,3],.analyse frozenEnv fun _ _ => none],Frozen e := by
    intro e he
    rcases List.mem_pair.mp he with rfl|rfl
    · trivial
    · exact .inr rfl
  exact frozen_rows _ (fun _ items => .refl items) _ hfs frozenEnv _ rfl rfl

/-- A counter of a row. -/
def columnRate (c : Counters) : Column→ℚ
  | (.recv,j) => c.1 j
  | (.sent,j) => c.2.1 j
  | (.both,j) => c.1 j+c.2.1 j

/-- The rates of a row that a sort mode compares. -/
def rates (o : OptionsT) (c : Counters) : List ℚ := (sortColumns o).map (columnRate c)

/-- Sort keys are in the opposite order of the rates. -/
theorem sortKey_le_rates {o : OptionsT} (hb : ByRates o) (aa bb : HostPairLine) :
    sortKey o aa≤ sortKey o bb ↔ rates o (counters bb)≤ rates o (counters aa) := by
  have hcols (line : HostPairLine) :
      rates o (counters line)=(sortColumns o).map (lineRate line) := by
    refine List.map_congr_left fun c _ => ?_
    obtain ⟨side,j⟩ := c
    cases side <;> rfl
  rw [sortKey_le_iff hb,hcols,hcols]

section Unfrozen

variable {q : (ℕ→ℕ→ℤ)→List ℕ→List ℕ} {env : Env}
  {hostName : AddressFamily→ In6Addr→Option (List Char)}

/-- The rows of an analysis are what all keys of lines show, in some order. -/
theorem rows_perm (hostName : AddressFamily→ In6Addr→Option (List Char)) (hq : Qsorts q)
    (hw : UiWf u) (hl : Labelled u)
    (hp : env.options.paused=false) (hf : env.options.freezeorder=false) :
    (rows (analyseData (wrapped q) env hostName u)).Perm
      ((keys (lines (analyseData (wrapped q) env hostName u))).map fun k =>
        (k,shown env.options u k)) := by
  have hlab := hl.analyseData (wrapped q) env hostName hw
  have hshown := analyseData_shown (wrapped q) env hostName hw hp
  have hlist := analyseData_unfrozen (wrapped q) env hostName (fun _ _ => (hq _ _).1) hw hp hf
  generalize analyseData (wrapped q) env hostName u=u' at hlab hshown hlist ⊢
  have hall : (lineRecords u').map (fun a => ((u'.lineMem a).ap,counters (u'.lineMem a)))=
      (keys (lines u')).map fun k => (k,shown env.options u k) := by
    rw [lines,keys_entries,List.map_map,List.map_map]
    refine List.map_congr_left fun n hn => ?_
    have hap : (u'.lineMem n.record).ap=n.key := hlab _ (mem_lines hn)
    have hc := hshown _ (mem_lines hn)
    simp only [Function.comp,hap]
    exact Prod.ext rfl hc
  rw [←hall]
  exact hlist.map _

/-- In a bandwidth mode they are in the order of their rates, if no two of them agree. -/
theorem rows_ordered (hq : Qsorts q) (hw : UiWf u) (hp : env.options.paused=false)
    (hf : env.options.freezeorder=false) (hb : ByRates env.options)
    (hd : (rows (analyseData (wrapped q) env hostName u)).Pairwise fun a b =>
      rates env.options a.2≠ rates env.options b.2) :
    Ordered (fun row : AddrPair×Counters => OrderDual.toDual (rates env.options row.2))
      (rows (analyseData (wrapped q) env hostName u)) := by
  have hl := analyseData_listed (wrapped q) env hostName hw hp hf hb
  have hlist := analyseData_unfrozen (wrapped q) env hostName (fun _ _ => (hq _ _).1) hw hp hf
  generalize analyseData (wrapped q) env hostName u=u' at hd hl hlist ⊢
  have hkeys : ((lineRecords u').map fun a => sortKey env.options (u'.lineMem a)).Nodup := by
    have hpoint := List.pairwise_map.mp hd
    rw [hlist.pairwise_iff fun hab => hab.symm] at hpoint
    refine List.pairwise_map.mpr (hpoint.imp fun hne heq => hne ?_)
    exact le_antisymm ((sortKey_le_rates hb _ _).mp heq.ge) ((sortKey_le_rates hb _ _).mp heq.le)
  obtain ⟨-,ho⟩ := hl.ordered hq hkeys
  refine List.pairwise_map.mpr (ho.imp fun hlt => ?_)
  exact (sortKey_le_rates hb _ _).mp hlt.le

/-- States that have counted alike have lines for the same pairs. -/
theorem Alike.keys (h : Alike u u') (hi : UiInv u) (hi' : UiInv u') {env' : Env}
    (hostName' : AddressFamily→ In6Addr→Option (List Char)) (ho : env'.options=env.options)
    (hp : env.options.paused=false) (hf : env.options.freezeorder=false) :
    (RecordStore.keys (lines (analyseData (wrapped q) env hostName u))).Perm
      (RecordStore.keys (lines (analyseData (wrapped q) env' hostName' u'))) := by
  have hnodup : (RecordStore.keys (lines (analyseData (wrapped q) env hostName u))).Nodup :=
    (uiStep_inv (wrapped q) hi (.analyse env hostName)).1.nodup
  have hnodup' : (RecordStore.keys (lines (analyseData (wrapped q) env' hostName' u'))).Nodup :=
    (uiStep_inv (wrapped q) hi' (.analyse env' hostName')).1.nodup
  refine (List.perm_ext_iff_of_nodup hnodup hnodup').mpr fun k => ?_
  have hflows (k : AddrPair) : k∈RecordStore.keys (flows u.toCapture) ↔
      k∈RecordStore.keys (flows u'.toCapture) := by
    rw [←keys_tallies,←keys_tallies]
    exact (h.capture.flows.map Prod.fst).mem_iff
  rw [analyseData_keys (wrapped q) env hostName hi.1 hp hf,
    analyseData_keys (wrapped q) env' hostName' hi'.1 (ho ▸ hp) (ho ▸ hf),ho]
  exact exists_congr fun k => and_congr_left fun _ => hflows k

/-- Two screens that are alike draw the same rows. -/
theorem Alike.rows (hq : Qsorts q) (h : Alike u u') (hi : UiInv u) (hi' : UiInv u')
    (hl : Labelled u) (hl' : Labelled u') {env' : Env}
    (hostName' : AddressFamily→ In6Addr→Option (List Char)) (ho : env'.options=env.options)
    (hp : env.options.paused=false) (hf : env.options.freezeorder=false) :
    (DisplayMemory.rows (analyseData (wrapped q) env hostName u)).Perm
      (DisplayMemory.rows (analyseData (wrapped q) env' hostName' u')) := by
  have hrows := rows_perm hostName hq hi.1 hl hp hf
  have hrows' := rows_perm hostName' hq hi'.1 hl' (ho ▸ hp) (ho ▸ hf)
  have hsame : (fun k => (k,DisplayMemory.shown env'.options u' k))=
      fun k => (k,DisplayMemory.shown env.options u k) := by
    funext k
    rw [ho,h.shown]
  rw [hsame] at hrows'
  exact (hrows.trans ((h.keys hi hi' hostName' ho hp hf).map _)).trans hrows'.symm

/-- Two screens that are alike have the same totals. -/
theorem Alike.totals (h : Alike u u') (hw : UiWf u) (hw' : UiWf u') {env' : Env}
    (hostName' : AddressFamily→ In6Addr→Option (List Char)) (hp : env.options.paused=false)
    (hp' : env'.options.paused=false) :
    (analyseData (wrapped q) env' hostName' u').totals=
      (analyseData (wrapped q) env hostName u).totals := by
  obtain ⟨-,-,-,-,ht⟩ := analyseData_totals (wrapped q) env hostName hw hp
  obtain ⟨-,-,-,-,ht'⟩ := analyseData_totals (wrapped q) env' hostName' hw' hp'
  rw [ht,ht',h.historyLengthOf,h.capture.historyPos,h.capture.historyTotals]

/-- A scan of the slots depends on the peaks before it and on the slots. -/
theorem peakSlots_same (slots : List Slot) (hp : peaks u'=peaks u)
    (ht : u'.historyTotals=u.historyTotals) :
    peaks (slots.foldl peakSlot u')=peaks (slots.foldl peakSlot u) := by
  induction slots generalizing u u' with
  | nil => exact hp
  | cons i is ih =>
    refine ih ?_ ht
    obtain ⟨hs,hr,hall⟩ : u'.peaksent=u.peaksent ∧ u'.peakrecv=u.peakrecv ∧
        u'.peaktotal=u.peaktotal := by simpa [peaks] using hp
    simp only [peaks,peakSlot,ht,hs,hr,hall]

/-- The totals are computed without a change of the peaks. -/
theorem calculateTotals_scan (u : Ui) :
    peaks (calculateTotals u)=peaks ((List.finRange historyLength).foldl peakSlot u) := by
  simp only [calculateTotals,peaks]

/-- Two screens that are alike have the same peaks. -/
theorem Alike.peaks (h : Alike u u') {env' : Env}
    (hostName' : AddressFamily→ In6Addr→Option (List Char)) (ho : env'.options=env.options)
    (hp : env.options.paused=false) (hf : env.options.freezeorder=false) :
    FrozenPeaks.peaks (analyseData (wrapped q) env' hostName' u')=
      FrozenPeaks.peaks (analyseData (wrapped q) env hostName u) := by
  obtain ⟨v,he,hz,ht⟩ := analyseData_scan_zero (wrapped q) env hostName u hp hf
  obtain ⟨v',he',hz',ht'⟩ := analyseData_scan_zero (wrapped q) env' hostName' u' (ho ▸ hp) (ho ▸ hf)
  rw [he,he',calculateTotals_scan,calculateTotals_scan]
  refine peakSlots_same _ (hz'.trans hz.symm) ?_
  rw [ht,ht',h.capture.historyTotals]

/-- What is displayed unfrozen depends on the packets, the rotations and the clock only: however a
program was paused, frozen, sorted and aggregated before, it shows the same pairs of hosts with the
same rates and totals, in the same order if they are sorted by rates that differ. -/
theorem display_memoryless (hq : Qsorts q) {es es' : List UiEvent}
    (h : es.filter isInput=es'.filter isInput) {env' : Env}
    (hostName' : AddressFamily→ In6Addr→Option (List Char)) (ho : env'.options=env.options)
    (hp : env.options.paused=false) (hf : env.options.freezeorder=false) :
    let u := analyseData (wrapped q) env hostName (uiRun (wrapped q) es)
    let u' := analyseData (wrapped q) env' hostName' (uiRun (wrapped q) es')
    (rows u).Perm (rows u') ∧ u'.totals=u.totals ∧ peaks u'=peaks u ∧
      (ByRates env.options→
        ((rows u).Pairwise fun a b => rates env.options a.2≠ rates env.options b.2)→
        rows u'=rows u) := by
  have halike := alike_uiRun (wrapped q) h
  have hi := uiRun_inv (wrapped q) es
  have hi' := uiRun_inv (wrapped q) es'
  have hperm : (rows (analyseData (wrapped q) env hostName (uiRun (wrapped q) es))).Perm
      (rows (analyseData (wrapped q) env' hostName' (uiRun (wrapped q) es'))) :=
    halike.rows hq hi hi' (labelled_uiRun _ es) (labelled_uiRun _ es') hostName' ho hp hf
  refine ⟨hperm,halike.totals hi.1 hi'.1 hostName' hp (ho ▸ hp),halike.peaks hostName' ho hp hf,
    fun hb hd => ?_⟩
  have hd' : (rows (analyseData (wrapped q) env' hostName' (uiRun (wrapped q) es'))).Pairwise
      fun a b => rates env'.options a.2≠ rates env'.options b.2 := by
    rw [ho]
    exact (hperm.pairwise_iff fun hab => hab.symm).mp hd
  have hord := rows_ordered hq hi.1 hp hf hb hd
  have hord' := rows_ordered hq hi'.1 (ho ▸ hp) (ho ▸ hf) (ho ▸ hb) hd'
  rw [ho] at hord'
  have hnodup : ((rows (analyseData (wrapped q) env hostName (uiRun (wrapped q) es))).map
      fun row => OrderDual.toDual (rates env.options row.2)).Nodup :=
    List.pairwise_map.mpr (hd.imp fun hne heq => hne (OrderDual.toDual.injective heq))
  exact (eq_of_ordered hnodup hperm hord hord').symm

end Unfrozen

/-- A frozen analysis between two packets leaves no trace. -/
theorem display_memoryless_frozen :
    let sort := wrapped (@sortOr ℕ id)
    let u := analyseData sort bareEnv (fun _ _ => none)
      (uiRun sort [flowFrom ![10,0,0,1],.analyse frozenEnv fun _ _ => none,flowFrom ![10,0,0,2]])
    let u' := analyseData sort bareEnv (fun _ _ => none)
      (uiRun sort [flowFrom ![10,0,0,1],flowFrom ![10,0,0,2]])
    (rows u).Perm (rows u') ∧ u'.totals=u.totals ∧ peaks u'=peaks u := by
  have hq : Qsorts (@sortOr ℕ id) := sortOr_qsorts fun _ => .refl _
  have hinputs : [flowFrom ![10,0,0,1],.analyse frozenEnv fun _ _ => none,
      flowFrom ![10,0,0,2]].filter isInput=
      [flowFrom ![10,0,0,1],flowFrom ![10,0,0,2]].filter isInput := rfl
  obtain ⟨hrows,htotals,hpeaks,-⟩ := @display_memoryless _ bareEnv (fun _ _ => none) hq _ _ hinputs
    bareEnv (fun _ _ => none) rfl rfl rfl
  exact ⟨hrows,htotals,hpeaks⟩

end IftopColor.DisplayMemory
