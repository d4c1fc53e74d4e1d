import IftopColor.ScreenTotals

/-!
# The screen list and the screen table

The list holds bare pointers to lines that the table owns. An unfrozen analysis
frees all lines, empties the list and fills both again; a frozen one keeps the
list and lets the table grow; a paused one does nothing. In every order of these
the list points to lines of the table only, to each of them at most once.
-/

namespace IftopColor.ScreenList

open ChainTable RecordStore AddrHash Options PacketDirection History FlowAccounting Screen
open ScreenTotals

/-- Lines owned by the table. -/
abbrev lineRecords (u : Ui) : List ℕ := u.screenHash.nodes.map Node.record

/-- The list points to lines of the table, to none of them twice. -/
structure InStep (u : Ui) : Prop where
  /-- No line is listed twice. -/
  nodup : u.screenList.Nodup
  /-- Listed lines are owned by the table. -/
  owned : ∀ p∈u.screenList,p∈lineRecords u

variable {u : Ui}

/-- A round of the loop frees no line and leaves the list alone. -/
theorem analyseFlow_list (env : Env) (u : Ui) (n : Node AddrPair ℕ) :
    (analyseFlow env u n).screenList=u.screenList ∧
      ∀ p∈lineRecords u,p∈lineRecords (analyseFlow env u n) := by
  unfold analyseFlow findOrCreateLine
  cases addrHashFind u.screenHash (aggregate env.options n.key) with
  | some line => exact ⟨rfl,fun _ hp => hp⟩
  | none =>
    refine ⟨rfl,fun p hp => ?_⟩
    have hnodes := nodes_push u.screenHash (u.nodePool.alloc poolBlockSize).1
      (aggregate env.options n.key) u.lineBrk
    exact (hnodes.map Node.record).symm.subset (List.mem_cons_of_mem _ hp)

/-- The loop over the flows leaves the list alone and frees no line. -/
theorem analyseLoop_list (env : Env) (ns : List (Node AddrPair ℕ)) (u : Ui) :
    (ns.foldl (analyseFlow env) u).screenList=u.screenList ∧
      ∀ p∈lineRecords u,p∈lineRecords (ns.foldl (analyseFlow env) u) := by
  induction ns generalizing u with
  | nil => exact ⟨rfl,fun _ hp => hp⟩
  | cons n ns ih =>
    obtain ⟨h1,h2⟩ := analyseFlow_list env u n
    obtain ⟨h3,h4⟩ := ih (analyseFlow env u n)
    exact ⟨h3.trans h1,fun p hp => h4 p (h2 p hp)⟩

section Analyse

variable (qsort : (ℕ→ℕ→Bool)→List ℕ→List ℕ) (env : Env)
  (hostName : AddressFamily→In6Addr→Option (List Char))

/-- With a frozen order the list and the table of lines stay as they are. -/
theorem makeScreenList_frozen (u : Ui) (hf : env.options.freezeorder=true) :
    (makeScreenList qsort env hostName u).screenList=u.screenList ∧
      (makeScreenList qsort env hostName u).screenHash=u.screenHash := by
  unfold makeScreenList
  rw [if_pos hf]
  exact ⟨rfl,rfl⟩

/-- Otherwise an empty list is filled with all lines of the table. -/
theorem makeScreenList_unfrozen (hq : ∀ compare items,(qsort compare items).Perm items)
    (hw : UiWf u) (hf : env.options.freezeorder=false) (hl : u.screenList=[]) :
    (makeScreenList qsort env hostName u).screenHash=u.screenHash ∧
      (makeScreenList qsort env hostName u).screenList.Perm (lineRecords u) := by
  have hitems : hashItems u.screenHash=u.screenHash.nodes := hashItems_eq hw.linked.addrs
  have hbatch (v : Ui) (hv : v.screenHash=u.screenHash) (hvl : v.screenList=[]) :
      (sortedListInsertBatch qsort env (lineRecords u) v).screenHash=u.screenHash ∧
        (sortedListInsertBatch qsort env (lineRecords u) v).screenList.Perm (lineRecords u) := by
    unfold sortedListInsertBatch
    dsimp only
    split
    · rename_i hnil
      rw [hnil,hvl]
      exact ⟨hv,.refl _⟩
    · exact ⟨hv,hq _ _⟩
  unfold makeScreenList
  rw [if_neg (by simp [hf]),hitems]
  dsimp only
  split
  · exact hbatch _ rfl hl
  · exact hbatch _ rfl hl

end Analyse

/-- Computing the totals touches neither list nor table. -/
theorem calculateTotals_list (u : Ui) :
    (calculateTotals u).screenList=u.screenList ∧ (calculateTotals u).screenHash=u.screenHash := by
  obtain ⟨s,r,t,hp⟩ := peaks_spec (List.finRange historyLength) u
  dsimp only [calculateTotals]
  rw [hp]
  exact ⟨rfl,rfl⟩

section Runs

variable (qsort : (ℕ→ℕ→Bool)→List ℕ→List ℕ) (env : Env)
  (hostName : AddressFamily→In6Addr→Option (List Char))

/-- A frozen analysis lists the same lines as before, and frees none of them. -/
theorem analyseData_frozen (u : Ui) (hp : env.options.paused=false)
    (hf : env.options.freezeorder=true) :
    (analyseData qsort env hostName u).screenList=u.screenList ∧
      ∀ p∈lineRecords u,p∈lineRecords (analyseData qsort env hostName u) := by
  unfold analyseData
  rw [if_neg (by simp [hp])]
  dsimp only
  rw [if_pos hf]
  generalize hu₁ : screenHashClear {u with totals := HostPairLine.zero}=u₁
  have hl₁ : u₁.screenList=u.screenList := by rw [←hu₁]; rfl
  have hh₁ : u₁.screenHash=u.screenHash := by rw [←hu₁]; rfl
  obtain ⟨hl₂,hr₂⟩ := analyseLoop_list env (hashItems u₁.history) u₁
  generalize (hashItems u₁.history).foldl (analyseFlow env) u₁=u₂ at hl₂ hr₂ ⊢
  obtain ⟨hl₃,hh₃⟩ := makeScreenList_frozen qsort env hostName u₂ hf
  obtain ⟨hl₄,hh₄⟩ := calculateTotals_list (makeScreenList qsort env hostName u₂)
  refine ⟨by rw [hl₄,hl₃,hl₂,hl₁],fun p hm => ?_⟩
  rw [lineRecords,hh₄,hh₃]
  exact hr₂ p (by rw [lineRecords,hh₁]; exact hm)

/-- An analysis that is neither paused nor frozen lists all lines. -/
theorem analyseData_unfrozen (hq : ∀ compare items,(qsort compare items).Perm items) (hw : UiWf u)
    (hp : env.options.paused=false) (hf : env.options.freezeorder=false) :
    (analyseData qsort env hostName u).screenList.Perm
      (lineRecords (analyseData qsort env hostName u)) := by
  have hw₀ : UiWf {u with totals := HostPairLine.zero} :=
    ⟨hw.capture,hw.linked,hw.fresh,hw.length,hw.elapsed⟩
  unfold analyseData
  rw [if_neg (by simp [hp])]
  dsimp only
  rw [if_neg (by simp [hf])]
  generalize {u with totals := HostPairLine.zero}=u₀ at hw₀ ⊢
  obtain ⟨hk₁,hw₁,hs₁⟩ := screenHashReset_spec env.options u₀ hw₀
  have hl₁ : (screenHashReset (screenListClear u₀)).screenList=[] := rfl
  generalize screenHashReset (screenListClear u₀)=u₁ at hk₁ hw₁ hs₁ hl₁ ⊢
  obtain ⟨-,hw₂,-⟩ := analyseLoop_spec env u₀ (hashItems u₁.history) [] u₁ hk₁ hw₁ hs₁
  have hl₂ := (analyseLoop_list env (hashItems u₁.history) u₁).1.trans hl₁
  generalize (hashItems u₁.history).foldl (analyseFlow env) u₁=u₂ at hw₂ hl₂ ⊢
  obtain ⟨hh₃,hm₃⟩ := makeScreenList_unfrozen qsort env hostName hq hw₂ hf hl₂
  obtain ⟨hl₄,hh₄⟩ := calculateTotals_list (makeScreenList qsort env hostName u₂)
  rw [hl₄,lineRecords,hh₄,hh₃]
  exact hm₃

/-- A list of all lines of the table is in step with it. -/
theorem InStep.of_perm (hw : UiWf u) (h : u.screenList.Perm (lineRecords u)) : InStep u :=
  ⟨h.nodup_iff.mpr hw.linked.records,fun _ hp => h.subset hp⟩

/-- Every call keeps the list in step with the table. -/
theorem uiStep_inStep (hq : ∀ compare items,(qsort compare items).Perm items) (hi : UiInv u)
    (h : InStep u) (e : UiEvent) : InStep (uiStep qsort u e) := by
  have hi' := (uiStep_inv qsort hi e).1
  cases e with
  | capture e => exact ⟨h.nodup,h.owned⟩
  | elapsed diff => exact ⟨h.nodup,h.owned⟩
  | analyse env hostName =>
    cases hp : env.options.paused with
    | true =>
      have hs : uiStep qsort u (.analyse env hostName)=u := if_pos hp
      rw [hs]
      exact h
    | false =>
      cases hf : env.options.freezeorder with
      | true =>
        obtain ⟨hl,hr⟩ := analyseData_frozen qsort env hostName u hp hf
        refine ⟨by rw [uiStep,hl]; exact h.nodup,fun p hm => ?_⟩
        rw [uiStep,hl] at hm
        exact hr p (h.owned p hm)
      | false => exact .of_perm hi' (analyseData_unfrozen qsort env hostName hq hi.1 hp hf)

/-- Every run keeps the list and the table in step. -/
theorem uiRun_inStep (hq : ∀ compare items,(qsort compare items).Perm items) (es : List UiEvent) :
    InStep (uiRun qsort es) := by
  have hrun (u : Ui) (hi : UiInv u) (h : InStep u) : InStep (es.foldl (uiStep qsort) u) := by
    induction es generalizing u with
    | nil => exact h
    | cons e es ih => exact ih _ (uiStep_inv qsort hi e) (uiStep_inStep qsort hq hi h e)
  exact hrun initUi (uiRun_inv qsort []) ⟨List.nodup_nil,by simp [initUi]⟩

/-- After any run and one more analysis the list points to lines that the table
owns, to none of them twice; unpaused and unfrozen, to all of them. -/
theorem screen_list_in_step (hq : ∀ compare items,(qsort compare items).Perm items)
    (es : List UiEvent) :
    InStep (analyseData qsort env hostName (uiRun qsort es)) ∧
      (env.options.paused=false→env.options.freezeorder=false→
        (analyseData qsort env hostName (uiRun qsort es)).screenList.Perm
          (lineRecords (analyseData qsort env hostName (uiRun qsort es)))) := by
  have hi := uiRun_inv qsort es
  refine ⟨?_,analyseData_unfrozen qsort env hostName hq hi.1⟩
  exact uiStep_inStep qsort hq hi (uiRun_inStep qsort hq es) (.analyse env hostName)

end Runs

/-- Two flows listed, a third one captured, order frozen and sources merged. -/
theorem screen_list_in_step_frozen :
    let flow (src : InAddr) : UiEvent :=
      .capture (.packet bareEnv (ip4Packet ipprotoUdp src ![10,0,0,9]) 1)
    let frozen : Env := {bareEnv with
      options := {bareEnv.options with freezeorder := true,aggregateSrc := true}}
    let es := [flow ![10,0,0,1],flow ![10,0,0,2],.analyse bareEnv fun _ _ => none,
      flow ![10,0,0,3],.analyse frozen fun _ _ => none,.capture .rotate]
    InStep (analyseData (fun _ items => items) bareEnv (fun _ _ => none)
        (uiRun (fun _ items => items) es)) ∧
      (bareEnv.options.paused=false→bareEnv.options.freezeorder=false→
        (analyseData (fun _ items => items) bareEnv (fun _ _ => none)
          (uiRun (fun _ items => items) es)).screenList.Perm
          (lineRecords (analyseData (fun _ items => items) bareEnv (fun _ _ => none)
            (uiRun (fun _ items => items) es)))) :=
  screen_list_in_step _ _ _ (fun _ items => .refl items) _

end IftopColor.ScreenList
