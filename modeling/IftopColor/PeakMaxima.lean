import IftopColor.FrozenPeaks

/-!
# Peaks and the range of `int`

The slots of the totals are `long` counters, the peaks are `int` variables. An
unfrozen analysis starts the peaks at zero, compares every slot with them at
full width and stores what is larger after a conversion to `int`. The peaks are
the maxima over the slots exactly as long as no slot holds 2^31 bytes or more.
-/

namespace IftopColor.PeakMaxima

open AddrHash Options PacketDirection History FlowAccounting Screen ScreenTotals FrozenPeaks

/-- A converted count is in the range of `int`. -/
theorem toInt_lt (x : ℕ) : toInt x<2^31 :=
  Int.bmod_lt (x:=x) (m:=2^32) (by decide)

/-- The scan leaves the total peak in the range of `int`. -/
theorem peakSlots_lt (slots : List Slot) (u : Ui) (h : u.peaktotal<2^31) :
    (slots.foldl peakSlot u).peaktotal<2^31 := by
  induction slots generalizing u with
  | nil => exact h
  | cons i is ih =>
    refine ih (peakSlot u i) ?_
    dsimp only [peakSlot]
    split
    · exact toInt_lt _
    · exact h

/-- All slots are small when the largest of them is. -/
theorem small_iff (totals : HistoryType) : Small totals ↔ (slotMaxima totals).2.2<2^31 := by
  simp [FrozenPeaks.Small,slotMaxima,Finset.sup_lt_iff]

section Analyse

variable (qsort : (ℕ→ℕ→Bool)→List ℕ→List ℕ) (env : Env)
  (hostName : AddressFamily→In6Addr→Option (List Char))

/-- An unpaused and unfrozen analysis ends with a scan that starts from zero. -/
theorem analyseData_scan_zero (u : Ui) (hp : env.options.paused=false)
    (hf : env.options.freezeorder=false) :
    ∃ u₃,analyseData qsort env hostName u=calculateTotals u₃ ∧ peaks u₃=0 ∧
      u₃.historyTotals=u.historyTotals := by
  obtain ⟨u₃,he,hp₃,ht₃⟩ := analyseData_scan qsort env hostName (u:=u) hp
  rw [hf] at hp₃
  exact ⟨u₃,he,hp₃,ht₃⟩

/-- An analysis leaves the total peak in the range of `int`. -/
theorem analyseData_peaktotal_lt (u : Ui) (hp : env.options.paused=false)
    (hf : env.options.freezeorder=false) : (peaks (analyseData qsort env hostName u)).2.2<2^31 := by
  obtain ⟨u₃,he,hp₃,-⟩ := analyseData_scan_zero qsort env hostName u hp hf
  have h0 : u₃.peaktotal=0 := congrArg (fun p => p.2.2) hp₃
  have hlt := peakSlots_lt (List.finRange historyLength) u₃ (by rw [h0]; decide)
  rw [he]
  simpa only [calculateTotals,peaks] using hlt

/-- The peaks after an unpaused and unfrozen analysis are the maxima over the
slots exactly when no slot holds 2^31 bytes or more. -/
theorem analyseData_peaks_iff (u : Ui) (hp : env.options.paused=false)
    (hf : env.options.freezeorder=false) :
    peaks (analyseData qsort env hostName u)=asInts (slotMaxima u.historyTotals) ↔
      Small u.historyTotals := by
  constructor
  · intro h
    have hlt := analyseData_peaktotal_lt qsort env hostName u hp hf
    rw [h] at hlt
    rw [small_iff]
    have hcast : ((slotMaxima u.historyTotals).2.2 : ℤ)<2^31 := hlt
    exact_mod_cast hcast
  · intro hs
    obtain ⟨u₃,he,hp₃,ht₃⟩ := analyseData_scan_zero qsort env hostName u hp hf
    have hmax : (0 : ℤ×ℤ×ℤ) ≤ asInts (slotMaxima u.historyTotals) :=
      ⟨Int.natCast_nonneg _,Int.natCast_nonneg _,Int.natCast_nonneg _⟩
    rw [he,calculateTotals_peaks (by rw [ht₃]; exact hs) (le_of_eq hp₃.symm),hp₃,ht₃]
    exact sup_of_le_right hmax

/-- After any packets, rotations and analyses, an unpaused and unfrozen analysis
shows the maxima over the slots exactly when no slot holds 2^31 bytes or more. -/
theorem peaks_are_maxima_iff (es : List UiEvent) (hp : env.options.paused=false)
    (hf : env.options.freezeorder=false) :
    peaks (analyseData qsort env hostName (uiRun qsort es))=
        asInts (slotMaxima (uiRun qsort es).historyTotals) ↔
      ∀ i,(uiRun qsort es).historyTotals.recv i+(uiRun qsort es).historyTotals.sent i<2^31 :=
  analyseData_peaks_iff qsort env hostName _ hp hf

end Analyse

/-- A run of packets and rotations only. -/
theorem uiRun_capture (qsort : (ℕ→ℕ→Bool)→List ℕ→List ℕ) (es : List Event) :
    (uiRun qsort (es.map .capture)).toCapture=run es := by
  induction es using List.reverseRecOn with
  | nil => rfl
  | append_singleton es e ih =>
    rw [run_append,←ih,uiRun,List.map_append,List.foldl_append,←uiRun]
    rfl

/-- A datagram without data. -/
def datagram : Packet := ip4Packet ipprotoUdp ![10,0,0,1] ![10,0,0,9]

/-- Two datagrams leave in one slot, one comes in the next one, and another slot is empty. -/
def threeSlots : List Event :=
  [.packet bareEnv datagram 1,.packet bareEnv datagram 1,.rotate,.packet bareEnv datagram 0,.rotate]

/-- The peaks of `threeSlots` are the maxima over its slots. -/
theorem peaks_are_maxima_iff_start :
    peaks (analyseData (fun _ items => items) bareEnv (fun _ _ => none)
        (uiRun (fun _ items => items) (threeSlots.map .capture)))=(40,20,40) := by
  have hsmall (i : Slot) : (run threeSlots).historyTotals.recv i+
      (run threeSlots).historyTotals.sent i<2^31 := by
    revert i
    decide +kernel
  have hmaxima : slotMaxima (run threeSlots).historyTotals=(40,20,40) := by
    decide +kernel
  rw [←uiRun_capture (fun _ items => items) threeSlots] at hsmall hmaxima
  rw [(peaks_are_maxima_iff _ bareEnv _ _ rfl rfl).mpr hsmall,hmaxima]
  rfl

/-- Repetitions of one packet all fall into the current slot. -/
theorem slotPackets_replicate (n : ℕ) {e : Event} {a : Accounted} (he : e.accounted=some a) :
    slotPackets (List.replicate n e) 0=List.replicate n a := by
  induction n with
  | zero => rfl
  | succ n ih =>
    rw [List.replicate_succ',slotPackets,List.foldl_append,List.foldl_cons,List.foldl_nil,
      ←slotPackets,List.replicate_succ']
    cases e with
    | rotate => cases he
    | packet env iptr hwDir =>
      simp only [slotStep,he]
      rw [Function.update_self,ih]

/-- A packet of 65535 bytes. -/
def longPacket : Packet := fun i =>
  if i=2 ∨ i=3 then 255 else ip4Packet ipprotoUdp ![10,0,0,1] ![10,0,0,9] i

/-- So many of them in one slot that their bytes exceed 2^31. -/
def flood : List Event := List.replicate 32769 (.packet bareEnv longPacket 1)

/-- The peaks after the flood are not the maxima. -/
theorem flood_hides_peaks :
    bareEnv.options.paused=false ∧ bareEnv.options.freezeorder=false ∧
      peaks (analyseData (fun _ items => items) bareEnv (fun _ _ => none)
          (uiRun (fun _ items => items) (flood.map .capture)))≠
        asInts (slotMaxima (uiRun (fun _ items => items) (flood.map .capture)).historyTotals) := by
  refine ⟨rfl,rfl,fun h => ?_⟩
  have hsmall := (analyseData_peaks_iff _ bareEnv _ _ rfl rfl).mp h
  rw [uiRun_capture] at hsmall
  obtain ⟨a,ha,hlen⟩ : ∃ a,(Event.packet bareEnv longPacket 1).accounted=some a ∧
      incomingLen a+outgoingLen a=65535 := ⟨_,rfl,by decide⟩
  obtain ⟨h1,h2⟩ := (run_follows flood).2.totals 0 (by decide)
  have hlt := hsmall (histIdx (run flood).historyPos 0)
  rw [h1,h2,flood,slotPackets_replicate _ ha] at hlt
  simp only [List.map_replicate,List.sum_replicate,nsmul_eq_mul,Nat.cast_ofNat] at hlt
  omega

end IftopColor.PeakMaxima
