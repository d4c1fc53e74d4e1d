import IftopColor.ScreenTotals
import Mathlib.Data.Finset.Lattice.Fold
import Mathlib.Order.Lattice.Nat
import Mathlib.Tactic.Linarith

/-!
# Totals and peaks under a frozen order

Whether the order is frozen is chosen anew before every analysis. The totals
and the cumulative totals come from the capture side alone, so the choice does
not matter to them. The peaks are reset by `screen_list_clear`, which a frozen
analysis does not call: it takes the larger of the old peaks and the maxima over
the slots. Peaks are therefore those of the last forty slots, in two runs with
different choices alike, exactly if the maxima have not fallen from one analysis
to the next when the second of the two is frozen.
-/

namespace IftopColor.FrozenPeaks

open ChainTable RecordStore AddrHash Options PacketDirection History FlowAccounting Screen
open ScreenTotals

/-- Largest bytes sent, received and both together in a slot of the totals. -/
def slotMaxima (totals : HistoryType) : ℕ×ℕ×ℕ :=
  (Finset.univ.sup totals.sent,Finset.univ.sup totals.recv,
    Finset.univ.sup fun i => totals.recv i+totals.sent i)

/-- `peaksent`, `peakrecv` and `peaktotal`. -/
def peaks (u : Ui) : ℤ×ℤ×ℤ := (u.peaksent,u.peakrecv,u.peaktotal)

/-- Counts as `int` values. -/
def asInts (m : ℕ×ℕ×ℕ) : ℤ×ℤ×ℤ := (m.1,m.2.1,m.2.2)

/-- Every slot total is below 2^31. -/
def Small (totals : HistoryType) : Prop := ∀ i,totals.recv i+totals.sent i<2^31

/-- Small counts survive the conversion to `int`. -/
theorem toInt_of_lt {x : ℕ} (h : x<2^31) : toInt x=x := by
  unfold toInt
  exact Int.bmod_eq_of_le (by omega) (by omega)

/-- Peaks after a scan of slots whose totals are small. -/
theorem peakSlots_le_iff (slots : List Slot) (u : Ui) (hs : Small u.historyTotals) :
    let u' := slots.foldl peakSlot u
    (∀ b,u'.peaksent≤b ↔ u.peaksent≤b ∧ ∀ i∈slots,(u.historyTotals.sent i : ℤ)≤b) ∧
      (∀ b,u'.peakrecv≤b ↔ u.peakrecv≤b ∧ ∀ i∈slots,(u.historyTotals.recv i : ℤ)≤b) ∧
      ∀ b,u'.peaktotal≤b ↔ u.peaktotal≤b ∧
        ∀ i∈slots,((u.historyTotals.recv i+u.historyTotals.sent i : ℕ) : ℤ)≤b := by
  induction slots generalizing u with
  | nil => simp
  | cons i is ih =>
    have hi := hs i
    obtain ⟨h1,h2,h3⟩ := ih (peakSlot u i) hs
    have hmax (p b : ℤ) (x : ℕ) (hx : x<2^31) :
        (if (x : ℤ)>p then toInt x else p)≤b ↔ p≤b ∧ (x : ℤ)≤b := by
      rw [toInt_of_lt hx]
      split <;> omega
    refine ⟨fun b => ?_,fun b => ?_,fun b => ?_⟩
    · rw [List.foldl_cons,h1]
      simp only [peakSlot,hmax _ _ _ (by omega : u.historyTotals.sent i<2^31),List.forall_mem_cons,
        and_assoc]
    · rw [List.foldl_cons,h2]
      simp only [peakSlot,hmax _ _ _ (by omega : u.historyTotals.recv i<2^31),List.forall_mem_cons,
        and_assoc]
    · rw [List.foldl_cons,h3]
      simp only [peakSlot,hmax _ _ _ hi,List.forall_mem_cons,and_assoc]

/-- The least bound of a peak and all slots is the larger of the peak and the
maximum. -/
theorem eq_max_sup {p p' : ℤ} {f : Slot→ℕ} (hp : 0≤p)
    (h : ∀ b,p'≤b ↔ p≤b ∧ ∀ i∈List.finRange historyLength,(f i : ℤ)≤b) :
    p'=max p (Finset.univ.sup f : ℕ) := by
  apply eq_of_forall_ge_iff
  intro b
  rw [h,max_le_iff]
  refine and_congr_right fun hb => ?_
  obtain ⟨n,rfl⟩ := Int.eq_ofNat_of_zero_le (hp.trans hb)
  simp [Finset.sup_le_iff]

/-- The totals of the history leave peaks that are the larger ones of the peaks
before and the maxima. -/
theorem calculateTotals_peaks {u : Ui} (hs : Small u.historyTotals) (hp : 0≤peaks u) :
    peaks (calculateTotals u)=peaks u⊔asInts (slotMaxima u.historyTotals) := by
  obtain ⟨p1,p2,p3⟩ : 0≤u.peaksent ∧ 0≤u.peakrecv ∧ 0≤u.peaktotal := hp
  have hscan : peaks (calculateTotals u)=peaks ((List.finRange historyLength).foldl peakSlot u) := by
    simp only [calculateTotals,peaks]
  obtain ⟨h1,h2,h3⟩ := peakSlots_le_iff (List.finRange historyLength) u hs
  rw [hscan]
  generalize (List.finRange historyLength).foldl peakSlot u=u' at h1 h2 h3 ⊢
  rw [peaks,eq_max_sup p1 h1,eq_max_sup p2 h2,eq_max_sup p3 h3]
  rfl

/-- A round of the loop of `analyse_data` moves neither peaks nor totals. -/
theorem analyseLoop_peaks (env : Env) (ns : List (Node AddrPair ℕ)) (u : Ui) :
    peaks (ns.foldl (analyseFlow env) u)=peaks u ∧
      (ns.foldl (analyseFlow env) u).historyTotals=u.historyTotals := by
  induction ns generalizing u with
  | nil => exact ⟨rfl,rfl⟩
  | cons n ns ih =>
    have hround : peaks (analyseFlow env u n)=peaks u ∧
        (analyseFlow env u n).historyTotals=u.historyTotals := by
      unfold analyseFlow findOrCreateLine
      cases addrHashFind u.screenHash (aggregate env.options n.key) <;> exact ⟨rfl,rfl⟩
    obtain ⟨h1,h2⟩ := ih (analyseFlow env u n)
    exact ⟨h1.trans hround.1,h2.trans hround.2⟩

section Analyse

variable (qsort : (ℕ→ℕ→Bool)→List ℕ→List ℕ) (env : Env)
  (hostName : AddressFamily→In6Addr→Option (List Char))

/-- Building the list does not change the peaks. -/
theorem makeScreenList_peaks (u : Ui) :
    peaks (makeScreenList qsort env hostName u)=peaks u ∧
      (makeScreenList qsort env hostName u).historyTotals=u.historyTotals := by
  unfold makeScreenList sortedListInsertBatch
  dsimp only
  split_ifs <;> exact ⟨rfl,rfl⟩

/-- An unpaused analysis ends with the scan of the slots, which starts from the
old peaks when it is frozen and from zero otherwise. -/
theorem analyseData_scan {u : Ui} (hp : env.options.paused=false) :
    ∃ u₃,analyseData qsort env hostName u=calculateTotals u₃ ∧
      peaks u₃=(if env.options.freezeorder then peaks u else 0) ∧
      u₃.historyTotals=u.historyTotals := by
  unfold analyseData
  rw [if_neg (by simp [hp])]
  dsimp only
  generalize hu₁ : (if env.options.freezeorder then
      screenHashClear {u with totals := HostPairLine.zero}
    else screenHashReset (screenListClear {u with totals := HostPairLine.zero}))=u₁
  have hp₁ : peaks u₁=(if env.options.freezeorder then peaks u else 0) ∧
      u₁.historyTotals=u.historyTotals := by
    rw [←hu₁]
    split <;> exact ⟨rfl,rfl⟩
  obtain ⟨hp₂,ht₂⟩ := analyseLoop_peaks env (hashItems u₁.history) u₁
  generalize (hashItems u₁.history).foldl (analyseFlow env) u₁=u₂ at hp₂ ht₂ ⊢
  obtain ⟨hp₃,ht₃⟩ := makeScreenList_peaks qsort env hostName u₂
  exact ⟨_,rfl,hp₃.trans (hp₂.trans hp₁.1),ht₃.trans (ht₂.trans hp₁.2)⟩

/-- Peaks after an unpaused analysis: the old ones take part when it is frozen. -/
theorem analyseData_peaks {u : Ui} (hp : env.options.paused=false) (hs : Small u.historyTotals)
    (h0 : 0≤peaks u) :
    peaks (analyseData qsort env hostName u)=
      (if env.options.freezeorder then peaks u else 0)⊔asInts (slotMaxima u.historyTotals) := by
  obtain ⟨u₃,he,hp₃,ht₃⟩ := analyseData_scan qsort env hostName (u:=u) hp
  have h0' : 0≤peaks u₃ := by
    rw [hp₃]
    split
    · exact h0
    · exact le_refl _
  rw [he,calculateTotals_peaks (by rw [ht₃]; exact hs) h0',hp₃,ht₃]

/-- An unpaused analysis keeps the capture side's figures and computes the totals
from them alone. -/
theorem analyseData_totals {u : Ui} (h : UiWf u) (hp : env.options.paused=false) :
    let u' := analyseData qsort env hostName u
    u'.historyTotals=u.historyTotals ∧ u'.historyPos=u.historyPos ∧
      u'.historyLen=u.historyLen ∧ u'.slotElapsed=u.slotElapsed ∧
      u'.totals=(accumulate u.historyPos u.historyTotals HostPairLine.zero).divide
        (historyLengthOf u) := by
  obtain ⟨u₃,he,hk,-,-⟩ := analyseData_spec qsort env hostName h hp
  obtain ⟨hcap,-,-,-,hel,hT⟩ := calculateTotals_spec u₃
  have hlen : historyLengthOf u₃=historyLengthOf u := hk.historyLengthOf
  dsimp only
  rw [he,hcap,hel,hT,hk.historyTotals,hk.historyPos,hk.historyLen,hk.slotElapsed,hk.totals,hlen]
  exact ⟨rfl,rfl,rfl,rfl,rfl⟩

end Analyse

/-- No slot of the totals holds more than all packets of the run. -/
theorem totals_le_accounted (es : List Event) (i : Slot) :
    (run es).historyTotals.recv i+(run es).historyTotals.sent i≤
      ((accountedIn es).map Accounted.len).sum := by
  have hlen (as : List Accounted) :
      (as.map incomingLen).sum+(as.map outgoingLen).sum=(as.map Accounted.len).sum := by
    rw [←List.sum_map_add]
    refine congrArg List.sum (List.map_congr_left fun a _ => ?_)
    unfold incomingLen outgoingLen
    cases a.outgoing <;> simp
  have htrace (j : ℕ) : ((slotPackets es j).map Accounted.len).sum≤
      ((accountedIn es).map Accounted.len).sum := by
    induction es using List.reverseRecOn generalizing j with
    | nil => simp [slotPackets]
    | append_singleton es e ih =>
      rw [slotPackets,List.foldl_append,List.foldl_cons,List.foldl_nil,←slotPackets,accountedIn,
        List.filterMap_append,←accountedIn,List.map_append,List.sum_append]
      cases e with
      | rotate =>
        cases j with
        | zero => simp [slotStep]
        | succ j => exact (ih j).trans (Nat.le_add_right _ _)
      | packet env iptr hwDir =>
        cases ha : (Event.packet env iptr hwDir).accounted with
        | none =>
          simp only [slotStep,ha]
          exact (ih j).trans (Nat.le_add_right _ _)
        | some a =>
          simp only [slotStep,ha]
          by_cases hj : j=0
          · subst hj
            simpa [ha] using ih 0
          · rw [Function.update_of_ne hj]
            exact (ih j).trans (Nat.le_add_right _ _)
  obtain ⟨j,hj,rfl⟩ := exists_histIdx (run es).historyPos i
  obtain ⟨h1,h2⟩ := (run_follows es).2.totals j hj
  rw [h1,h2,hlen]
  exact htrace j

/-- Rotations move all packets to older slots. -/
theorem slotPackets_rotations (es : List Event) {n j : ℕ} (hj : j<n) :
    slotPackets (es++List.replicate n .rotate) j=[] := by
  induction n generalizing j with
  | zero => omega
  | succ n ih =>
    rw [List.replicate_succ',←List.append_assoc,slotPackets,List.foldl_append,List.foldl_cons,
      List.foldl_nil,←slotPackets]
    cases j with
    | zero => rfl
    | succ j => exact ih (by omega)

/-- Forty rotations without a packet empty the window. -/
theorem slotMaxima_rotations (es : List Event) :
    slotMaxima (run (es++List.replicate 40 .rotate)).historyTotals=0 := by
  have hzero (i : Slot) : (run (es++List.replicate 40 .rotate)).historyTotals.recv i=0 ∧
      (run (es++List.replicate 40 .rotate)).historyTotals.sent i=0 := by
    obtain ⟨j,hj,rfl⟩ := exists_histIdx (run (es++List.replicate 40 .rotate)).historyPos i
    obtain ⟨h1,h2⟩ := (run_follows (es++List.replicate 40 .rotate)).2.totals j hj
    rw [h1,h2,slotPackets_rotations es hj]
    exact ⟨rfl,rfl⟩
  generalize run (es++List.replicate 40 .rotate)=s at hzero
  simp [slotMaxima,hzero]

/-- An analysis is unpaused and frozen or not, as chosen. -/
def chooseFreeze (frozen : Bool) : UiEvent→UiEvent
  | .analyse env hostName =>
    .analyse {env with options := {env.options with paused := false,freezeorder := frozen}} hostName
  | .capture e => .capture e
  | .elapsed diff => .elapsed diff

/-- A run with a choice for each of its calls. -/
def freezing (frozen : ℕ→Bool) (es : List UiEvent) : List UiEvent :=
  es.mapIdx fun i e => chooseFreeze (frozen i) e

/-- The state after a run with choices. -/
def frozenRun (qsort : (ℕ→ℕ→Bool)→List ℕ→List ℕ) (frozen : ℕ→Bool) (es : List UiEvent) : Ui :=
  uiRun qsort (freezing frozen es)

/-- Packets and rotations of a run. -/
def captured (es : List UiEvent) : List Event :=
  es.filterMap fun
    | .capture e => some e
    | .elapsed _ => none
    | .analyse .. => none

/-- Maxima over the slots after the packets and rotations of a run. -/
def maximaAfter (es : List UiEvent) : ℕ×ℕ×ℕ := slotMaxima (run (captured es)).historyTotals

/-- Maxima over the slots at the last analysis of a run, zero before the first. -/
def maximaSeen (es : List UiEvent) : ℕ×ℕ×ℕ :=
  match es.reverse.dropWhile fun | .analyse .. => false | _ => true with
  | [] => 0
  | _::earlier => maximaAfter earlier.reverse

/-- Figures of two runs after the same analysis: the same totals, cumulative
totals and peaks, the latter being the maxima over the slots. -/
structure SameFigures (u u' : Ui) : Prop where
  /-- Totals of all divisions in both directions. -/
  totals : u'.totals=u.totals
  /-- Bytes sent and received since the start. -/
  cumulative : u'.historyTotals.totalSent=u.historyTotals.totalSent ∧
    u'.historyTotals.totalRecv=u.historyTotals.totalRecv
  /-- The peaks agree. -/
  peaks : peaks u'=peaks u
  /-- The peaks are those of the slots. -/
  maxima : FrozenPeaks.peaks u=asInts (slotMaxima u.historyTotals)

section Runs

variable (qsort : (ℕ→ℕ→Bool)→List ℕ→List ℕ) (frozen frozen' : ℕ→Bool) (es : List UiEvent)

/-- After every analysis of a run, two choices of freezing show the same figures. -/
def Unaffected : Prop :=
  ∀ es₁ env hostName,es₁++[.analyse env hostName]<+:es→
    SameFigures (frozenRun qsort frozen (es₁++[.analyse env hostName]))
      (frozenRun qsort frozen' (es₁++[.analyse env hostName]))

/-- No frozen analysis finds smaller maxima than the analysis before it. -/
def PeaksStand : Prop :=
  ∀ es₁ env hostName,es₁++[.analyse env hostName]<+:es→frozen es₁.length=true→
    maximaSeen es₁ ≤ maximaAfter es₁

/-- The state after one more call is reached by its step, with the order frozen as chosen. -/
theorem frozenRun_append (e : UiEvent) :
    frozenRun qsort frozen (es++[e])=
      uiStep qsort (frozenRun qsort frozen es) (chooseFreeze (frozen es.length) e) := by
  simp [frozenRun,freezing,uiRun]

/-- Totals, position and number of slots. -/
def ring (s : Capture) : HistoryType×Slot×ℕ := (s.historyTotals,s.historyPos,s.historyLen)

/-- The ring after a call depends on the ring before it only. -/
theorem step_ring {frame frame' : List ℕ} {s s' : Capture} (h : Wf frame s) (h' : Wf frame' s')
    (hr : ring s=ring s') (e : Event) : ring (step s e)=ring (step s' e) := by
  simp only [ring,Prod.mk.injEq] at hr
  obtain ⟨ht,hp,hl⟩ := hr
  cases e with
  | packet env iptr hwDir =>
    cases ha : account env iptr hwDir with
    | none => simp only [step,handleIpPacket,ha,ring,ht,hp,hl]
    | some a =>
      obtain ⟨r1,r2,r3⟩ := recordPacket_ring env a s
      obtain ⟨r1',r2',r3'⟩ := recordPacket_ring env a s'
      simp only [step,handleIpPacket,ha,ring,r1,r2,r3,r1',r2',r3',ht,hp,hl]
  | rotate =>
    obtain ⟨-,-,r1,r2,r3⟩ := historyRotate_spec h
    obtain ⟨-,-,r1',r2',r3'⟩ := historyRotate_spec h'
    simp only [step,ring,r1,r2,r3,r1',r2',r3',ht,hp,hl]

/-- The ring of a run is that of its packets and rotations. -/
theorem frozenRun_ring : ring (frozenRun qsort frozen es).toCapture=ring (run (captured es)) := by
  induction es using List.reverseRecOn with
  | nil => rfl
  | append_singleton es e ih =>
    have hw := (uiRun_inv qsort (freezing frozen es)).1
    rw [frozenRun_append]
    cases e with
    | capture e =>
      have hc : captured (es++[.capture e])=captured es++[e] := by simp [captured]
      rw [hc,run_append]
      exact step_ring hw.capture (run_follows _).1 ih e
    | elapsed diff =>
      have hc : captured (es++[.elapsed diff])=captured es := by simp [captured]
      rw [hc]
      exact ih
    | analyse env hostName =>
      have hc : captured (es++[.analyse env hostName])=captured es := by simp [captured]
      obtain ⟨r1,r2,r3,-⟩ := analyseData_totals qsort
        {env with options := {env.options with paused := false,freezeorder := frozen es.length}}
        hostName hw rfl
      rw [hc,←ih]
      exact congrArg₂ Prod.mk r1 (congrArg₂ Prod.mk r2 r3)

/-- The time in the current slot does not depend on the choices. -/
theorem frozenRun_slotElapsed :
    (frozenRun qsort frozen es).slotElapsed=(frozenRun qsort frozen' es).slotElapsed := by
  induction es using List.reverseRecOn with
  | nil => rfl
  | append_singleton es e ih =>
    rw [frozenRun_append,frozenRun_append]
    cases e with
    | capture e => exact ih
    | elapsed diff => rfl
    | analyse env hostName =>
      have hel (c : ℕ→Bool) := (analyseData_totals qsort
        {env with options := {env.options with paused := false,freezeorder := c es.length}}
        hostName (uiRun_inv qsort (freezing c es)).1 rfl).2.2.2.1
      exact (hel frozen).trans (ih.trans (hel frozen').symm)

/-- Totals and cumulative totals never depend on the choices. -/
theorem frozenRun_totals (env : Env) (hostName : AddressFamily→In6Addr→Option (List Char)) :
    let u := frozenRun qsort frozen (es++[.analyse env hostName])
    let u' := frozenRun qsort frozen' (es++[.analyse env hostName])
    u'.totals=u.totals ∧ u'.historyTotals=u.historyTotals := by
  have hring (es : List UiEvent) := (frozenRun_ring qsort frozen' es).trans
    (frozenRun_ring qsort frozen es).symm
  have htotals (c : ℕ→Bool) := (analyseData_totals qsort
    {env with options := {env.options with paused := false,freezeorder := c es.length}}
    hostName (uiRun_inv qsort (freezing c es)).1 rfl).2.2.2.2
  refine ⟨?_,congrArg Prod.fst (hring _)⟩
  have hr := hring es
  simp only [ring,Prod.mk.injEq] at hr
  obtain ⟨ht,hp,hl⟩ := hr
  have hlen : historyLengthOf (frozenRun qsort frozen' es)=
      historyLengthOf (frozenRun qsort frozen es) := by
    funext j
    simp only [historyLengthOf,hl,frozenRun_slotElapsed qsort frozen' frozen]
  have h1 := htotals frozen
  have h2 := htotals frozen'
  rw [←frozenRun] at h1 h2
  rw [ht,hp,hlen] at h2
  rw [frozenRun_append,frozenRun_append]
  exact h2.trans h1.symm

/-- The peaks after every analysis of a run are the maxima over the slots. -/
def PeaksMaximal : Prop :=
  ∀ es₁ env hostName,es₁++[.analyse env hostName]<+:es→
    peaks (frozenRun qsort frozen (es₁++[.analyse env hostName]))=asInts (maximaAfter es₁)

variable {qsort frozen frozen' es}

/-- Converting maxima to `int` keeps their order while they are in its range. -/
theorem asInts_le_iff {m m' : ℕ×ℕ×ℕ} : asInts m≤asInts m' ↔ m ≤ m' := by
  simp [asInts,Prod.le_def]

/-- Peaks that were the maxima after every analysis are those of the last one. -/
theorem peaks_eq_seen (h : PeaksMaximal qsort frozen es) :
    peaks (frozenRun qsort frozen es)=asInts (maximaSeen es) := by
  induction es using List.reverseRecOn with
  | nil => rfl
  | append_singleton es e ih =>
    have hes : PeaksMaximal qsort frozen es :=
      fun es₁ env hostName hp => h es₁ env hostName (hp.trans (List.prefix_append es [e]))
    cases e with
    | capture e =>
      have hseen : maximaSeen (es++[.capture e])=maximaSeen es := by simp [maximaSeen]
      rw [frozenRun_append,hseen,←ih hes]
      rfl
    | elapsed diff =>
      have hseen : maximaSeen (es++[.elapsed diff])=maximaSeen es := by simp [maximaSeen]
      rw [frozenRun_append,hseen,←ih hes]
      rfl
    | analyse env hostName =>
      have hseen : maximaSeen (es++[.analyse env hostName])=maximaAfter es := by simp [maximaSeen]
      rw [hseen]
      exact h es env hostName (List.prefix_refl _)

/-- One more analysis leaves the maxima over the slots unless it is frozen and
they have fallen. -/
theorem peaks_append_iff (hs : Small (run (captured es)).historyTotals)
    (h : PeaksMaximal qsort frozen es) (env : Env)
    (hostName : AddressFamily→In6Addr→Option (List Char)) :
    peaks (frozenRun qsort frozen (es++[.analyse env hostName]))=asInts (maximaAfter es) ↔
      (frozen es.length=true→maximaSeen es ≤ maximaAfter es) := by
  have hseen := peaks_eq_seen h
  have ht : (frozenRun qsort frozen es).historyTotals=(run (captured es)).historyTotals :=
    congrArg Prod.fst (frozenRun_ring qsort frozen es)
  have hnonneg (m : ℕ×ℕ×ℕ) : 0≤asInts m := by simp [asInts,Prod.le_def]
  have h0 : 0≤peaks (frozenRun qsort frozen es) := by
    rw [hseen]
    exact hnonneg _
  rw [frozenRun_append,chooseFreeze,uiStep,
    analyseData_peaks qsort _ hostName rfl (by rw [ht]; exact hs) h0,ht,←maximaAfter,hseen]
  cases frozen es.length with
  | false => simp [hnonneg]
  | true => simp [asInts_le_iff]

/-- The peaks of a run are the maxima exactly if no frozen analysis finds smaller
ones than the analysis before it. -/
theorem peaksMaximal_iff (hs : ∀ es₁,es₁<+:es→Small (run (captured es₁)).historyTotals) :
    PeaksMaximal qsort frozen es ↔ PeaksStand frozen es := by
  constructor
  · intro h es₁ env hostName hp
    have hp₁ : es₁<+:es := (List.prefix_append _ _).trans hp
    have h₁ : PeaksMaximal qsort frozen es₁ :=
      fun es₂ env hostName hp₂ => h es₂ env hostName (hp₂.trans hp₁)
    exact (peaks_append_iff (hs es₁ hp₁) h₁ env hostName).mp (h es₁ env hostName hp)
  · intro h
    induction es using List.reverseRecOn with
    | nil => exact fun es₁ env hostName hp => by simp at hp
    | append_singleton es e ih =>
      have hpre : es<+:es++[e] := List.prefix_append es [e]
      have hes := ih (fun es₁ hp => hs es₁ (hp.trans hpre))
        fun es₁ env hostName hp => h es₁ env hostName (hp.trans hpre)
      intro es₁ env hostName hp
      rcases List.prefix_concat_iff.mp hp with he|hp
      · obtain ⟨rfl,hl⟩ := List.append_inj' he rfl
        obtain rfl := List.singleton_inj.mp hl
        exact (peaks_append_iff (hs es₁ hpre) hes env hostName).mpr (h es₁ env hostName hp)
      · exact hes es₁ env hostName hp

/-- The maxima after an analysis are those before it. -/
theorem slotMaxima_frozenRun (es₁ : List UiEvent) (env : Env)
    (hostName : AddressFamily→In6Addr→Option (List Char)) :
    slotMaxima (frozenRun qsort frozen (es₁++[.analyse env hostName])).historyTotals=
      maximaAfter es₁ := by
  have hc : captured (es₁++[.analyse env hostName])=captured es₁ := by simp [captured]
  have ht := congrArg Prod.fst (frozenRun_ring qsort frozen (es₁++[.analyse env hostName]))
  rw [hc] at ht
  exact congrArg slotMaxima ht

/-- Runs with the same figures both have the maxima as their peaks. -/
theorem Unaffected.peaksMaximal (h : Unaffected qsort frozen frozen' es) :
    PeaksMaximal qsort frozen es ∧ PeaksMaximal qsort frozen' es := by
  refine ⟨fun es₁ env hostName hp => ?_,fun es₁ env hostName hp => ?_⟩
  · rw [(h es₁ env hostName hp).maxima,slotMaxima_frozenRun]
  · rw [(h es₁ env hostName hp).peaks,(h es₁ env hostName hp).maxima,slotMaxima_frozenRun]

/-- Two choices of freezing show the same figures after every analysis, with the
peaks of the last forty slots, exactly if in neither of them a frozen analysis
finds smaller maxima than the analysis before it. -/
theorem unaffected_iff_peaksStand
    (hs : ∀ es₁,es₁<+:es→Small (run (captured es₁)).historyTotals) :
    Unaffected qsort frozen frozen' es ↔ PeaksStand frozen es ∧ PeaksStand frozen' es := by
  rw [←peaksMaximal_iff hs,←peaksMaximal_iff hs]
  refine ⟨fun h => h.peaksMaximal,?_⟩
  rintro ⟨h,h'⟩ es₁ env hostName hp
  obtain ⟨ht,hc⟩ := frozenRun_totals qsort frozen frozen' es₁ env hostName
  refine ⟨ht,by rw [hc]; exact ⟨rfl,rfl⟩,?_,?_⟩
  · rw [h es₁ env hostName hp,h' es₁ env hostName hp]
  · rw [h es₁ env hostName hp,slotMaxima_frozenRun]

end Runs

/-- A packet of 20 bytes, an analysis and forty rotations. -/
def fading : List UiEvent :=
  [.capture (.packet bareEnv (ip4Packet ipprotoUdp ![10,0,0,1] ![10,0,0,9]) 1),
    .analyse bareEnv fun _ _ => none]++List.replicate 40 (.capture .rotate)

/-- The same and another analysis. -/
def fadingRun : List UiEvent := fading++[.analyse bareEnv fun _ _ => none]

/-- The slots of `fadingRun` never hold more than the 20 bytes. -/
theorem fadingRun_small {es₁ : List UiEvent} (hp : es₁<+:fadingRun) :
    Small (run (captured es₁)).historyTotals := by
  intro i
  have hsum : ((accountedIn (captured fadingRun)).map Accounted.len).sum=20 := by decide
  obtain ⟨es₂,hes⟩ := hp
  have hle := totals_le_accounted (captured es₁) i
  rw [←hes,captured,List.filterMap_append,accountedIn,List.filterMap_append,List.map_append,
    List.sum_append,←captured,←accountedIn] at hsum
  omega

/-- The condition decides about `fadingRun` with the order unfrozen and with it frozen. -/
theorem unaffected_iff_peaksStand_fading :
    (∀ es₁,es₁<+:fadingRun→Small (run (captured es₁)).historyTotals) ∧
      (Unaffected (fun _ items => items) (fun _ => false) (fun _ => true) fadingRun ↔
        PeaksStand (fun _ => false) fadingRun ∧ PeaksStand (fun _ => true) fadingRun) :=
  ⟨fun _ => fadingRun_small,unaffected_iff_peaksStand fun _ => fadingRun_small⟩

set_option maxRecDepth 10000 in
/-- Frozen, the second analysis still shows the packet of the first as its peak. -/
theorem frozen_peak_outlives_window :
    (∀ es₁,es₁<+:fadingRun→Small (run (captured es₁)).historyTotals) ∧
      ¬Unaffected (fun _ items => items) (fun _ => false) (fun _ => true) fadingRun := by
  refine ⟨fun _ => fadingRun_small,fun h => ?_⟩
  have hstand := (peaksMaximal_iff fun _ => fadingRun_small).mp h.peaksMaximal.2
  have hseen : maximaSeen fading=(20,0,20) := by decide
  have hafter : maximaAfter fading=0 := slotMaxima_rotations
    [.packet bareEnv (ip4Packet ipprotoUdp ![10,0,0,1] ![10,0,0,9]) 1]
  have hle := hstand fading bareEnv (fun _ _ => none) (List.prefix_refl _) rfl
  rw [hseen,hafter] at hle
  exact absurd hle (by decide)

end IftopColor.FrozenPeaks
