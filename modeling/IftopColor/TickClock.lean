import IftopColor.ScreenTotals

/-!
# The clock of `tick`

Every call of `tick` reads the clock, rotates the history when a full slot has
passed since the last rotation, records how far the current slot has come and
repaints. Readings may repeat, jump ahead or go back. The ring position and the
number of slots in use count the rotations, the elapsed part of a slot stays
within one slot, and so the lengths that rates are divided by are positive,
within their divisions and growing from division to division.
-/

namespace IftopColor.TickClock

open AddrHash ProcInfo PacketDirection History Screen ScreenTotals

/-- `struct timeval`. -/
structure Timeval where
  /-- `tv_sec`. -/
  tvSec : ℤ
  /-- `tv_usec`. -/
  tvUsec : ℤ

/-- `timeval_diff`, in exact seconds. -/
def timevalDiff (a b : Timeval) : ℚ :=
  ((a.tvSec-b.tvSec : ℤ) : ℚ)+((a.tvUsec-b.tvUsec : ℤ) : ℚ)/1000000

/-- `DISPLAY_RESOLUTION`, in seconds. -/
def displayResolution : ℚ := 3/100

/-- `PROCINFO_RESOLUTION`, in seconds. -/
def procinfoResolution : ℚ := 1/4

/-- Globals that `tick` works on. -/
structure Clocked extends Ui where
  /-- `last_timestamp`: the last rotation. -/
  lastTimestamp : Timeval
  /-- `last_display`: the last repaint. -/
  lastDisplay : Timeval
  /-- `last_procinfo`: the last refresh of the socket table. -/
  lastProcinfo : Timeval

/-- State after `init_history` has read the clock. -/
def initClocked (start : Timeval) : Clocked := ⟨initUi,start,start,start⟩

/-- The surroundings of one call of `tick`. -/
structure TickArgs where
  /-- What `gettimeofday` reads. -/
  now : Timeval
  /-- Options and socket table before the call. -/
  env : Env
  /-- The socket table that `procinfo_refresh` would read. -/
  refreshed : List SockEntry
  /-- Host names to sort by. -/
  hostName : AddressFamily→In6Addr→Option (List Char)

/-- A full slot has passed since the last rotation. -/
def rotates (now : Timeval) (s : Clocked) : Prop := timevalDiff now s.lastTimestamp≥resolution

instance (now : Timeval) (s : Clocked) : Decidable (rotates now s) :=
  inferInstanceAs (Decidable (_≥_))

/-- The first part of `tick`: rotate when it is time to. -/
def tickRotate (now : Timeval) (s : Clocked) : Clocked :=
  if rotates now s then {s with toCapture := historyRotate s.toCapture,lastTimestamp := now} else s

/-- The second part: how far the current slot has come. -/
def tickElapsed (now : Timeval) (s : Clocked) : Clocked :=
  {s with toUi := setSlotElapsed (timevalDiff now s.lastTimestamp) s.toUi}

/-- The state in which `tick` reaches its display part. -/
def beforeDisplay (now : Timeval) (s : Clocked) : Clocked := tickElapsed now (tickRotate now s)

/-- The socket table is due for a refresh. -/
def refreshes (a : TickArgs) (s : Clocked) : Prop :=
  a.env.options.showProcesses=true ∧ timevalDiff a.now s.lastProcinfo≥procinfoResolution

instance (a : TickArgs) (s : Clocked) : Decidable (refreshes a s) :=
  inferInstanceAs (Decidable (_ ∧ _))

variable (qsort : (ℕ→ℕ→Bool)→List ℕ→List ℕ)

/-- `tick`. Painting reads the state and leaves it alone. -/
def tick (a : TickArgs) (s : Clocked) : Clocked :=
  let didRotate := decide (rotates a.now s)
  let s := beforeDisplay a.now s
  let env := if refreshes a s then {a.env with liveTable := a.refreshed} else a.env
  let s := if refreshes a s then {s with lastProcinfo := a.now} else s
  if didRotate ∨ timevalDiff a.now s.lastDisplay≥displayResolution then
    {s with toUi := analyseData qsort env a.hostName s.toUi,lastDisplay := a.now}
  else s

/-- Calls of the two threads: ticks, and packets between them. -/
inductive ClockEvent where
  | tick (a : TickArgs)
  | packet (env : Env) (iptr : Packet) (hwDir : ℤ)

/-- The effect of a call. -/
def clockStep (s : Clocked) : ClockEvent→Clocked
  | .tick a => tick qsort a s
  | .packet env iptr hwDir => {s with toCapture := handleIpPacket env iptr hwDir s.toCapture}

/-- The state after some calls. -/
def clockRun (start : Timeval) (es : List ClockEvent) : Clocked :=
  es.foldl (clockStep qsort) (initClocked start)

/-- The number of rotations that a call makes. -/
def stepRotations (s : Clocked) : ClockEvent→ℕ
  | .tick a => if rotates a.now s then 1 else 0
  | .packet .. => 0

/-- The number of rotations in a list of calls. -/
def rotations (s : Clocked) : List ClockEvent→ℕ
  | [] => 0
  | e::es => stepRotations s e+rotations (clockStep qsort s e) es

/-- What the lengths of the divisions are computed from, after some rotations. -/
structure Counted (rotated : ℕ) (u : Ui) : Prop where
  /-- The ring position counts the rotations around the ring. -/
  pos : u.historyPos.val=rotated%historyLength
  /-- The number of slots in use counts them up to a full ring. -/
  len : u.historyLen=min historyLength (1+rotated)
  /-- No slot has begun in the future. -/
  elapsed_nonneg : 0≤u.slotElapsed
  /-- No slot is longer than one slot. -/
  elapsed_le : u.slotElapsed≤ resolution

/-- The divisors of the rates make sense. -/
structure Sane (u : Ui) : Prop where
  /-- At least one slot is in use. -/
  len_pos : 1≤u.historyLen
  /-- At most the whole ring is in use. -/
  len_le : u.historyLen≤historyLength
  /-- Lengths are positive. -/
  positive : ∀ j,0<historyLengthOf u j
  /-- Lengths stay within their divisions. -/
  bounded : ∀ j,historyLengthOf u j≤historyDivs j*resolution
  /-- Lengths grow from division to division. -/
  monotone : Monotone (historyLengthOf u)
  /-- `make_screen_list` inverts every length. -/
  inverted : ∀ j,invHistLen u j=1/historyLengthOf u j
  /-- `calculate_totals` divides by every length. -/
  divided : ∀ line : HostPairLine,line.divide (historyLengthOf u)={line with
    recv := fun j => line.recv j/historyLengthOf u j
    sent := fun j => line.sent j/historyLengthOf u j}

variable {u : Ui} {rotated : ℕ}

/-- The number of full slots of a division. -/
def fullSlots (u : Ui) (j : Division) : ℕ := min u.historyLen (historyDivs j)

/-- The length of a division, from its slots. -/
theorem historyLengthOf_eq (u : Ui) (j : Division) :
    historyLengthOf u j=
      if fullSlots u j≤1 then if u.slotElapsed>0 then u.slotElapsed else resolution
      else (fullSlots u j-1)*resolution+u.slotElapsed := by
  have hs : (if u.historyLen<historyDivs j then u.historyLen else historyDivs j)=fullSlots u j := by
    unfold fullSlots
    split <;> omega
  simp only [historyLengthOf,hs]

/-- Every division has at least two slots. -/
theorem two_le_historyDivs (j : Division) : 2≤historyDivs j := by
  revert j
  decide

/-- Longer divisions have at least the slots of the shorter ones. -/
theorem historyDivs_monotone : Monotone historyDivs := by decide

/-- In the first slot after the start all divisions have the same length. -/
theorem historyLengthOf_first (h : u.historyLen=1) (j : Division) :
    historyLengthOf u j=if u.slotElapsed>0 then u.slotElapsed else resolution := by
  have hs : fullSlots u j≤1 := by
    have := two_le_historyDivs j
    unfold fullSlots
    omega
  rw [historyLengthOf_eq,if_pos hs]

/-- Later on a division has its full slots but the newest, and the elapsed part
of that. -/
theorem historyLengthOf_later (h : 2≤u.historyLen) (j : Division) :
    historyLengthOf u j=(fullSlots u j-1)*resolution+u.slotElapsed ∧ 2≤fullSlots u j := by
  have hs : 2≤fullSlots u j := by
    have := two_le_historyDivs j
    unfold fullSlots
    omega
  exact ⟨by rw [historyLengthOf_eq,if_neg (by omega)],hs⟩

/-- Counted rotations make sane divisors. -/
theorem Counted.sane (h : Counted rotated u) : Sane u := by
  have hlen : u.historyLen=min 40 (1+rotated) := h.len
  have hfirst : ¬1<u.historyLen→u.historyLen=1 := by omega
  have h0 := h.elapsed_nonneg
  have h1 := h.elapsed_le
  have hpos : ∀ j,0<historyLengthOf u j := by
    intro j
    by_cases hl : 1<u.historyLen
    · obtain ⟨he,hs⟩ := historyLengthOf_later hl j
      have hq : (2 : ℚ) ≤ fullSlots u j := by exact_mod_cast hs
      rw [he,resolution]
      linarith
    · rw [historyLengthOf_first (hfirst hl),resolution]
      split <;> linarith
  refine ⟨by omega,hlen.trans_le (Nat.min_le_left _ _),hpos,?_,?_,?_,?_⟩
  · intro j
    by_cases hl : 1<u.historyLen
    · have he := (historyLengthOf_later hl j).1
      have hs : (fullSlots u j : ℚ) ≤ historyDivs j := by
        exact_mod_cast Nat.min_le_right _ _
      rw [resolution] at h1
      rw [he,resolution]
      linarith
    · have hd : (2 : ℚ) ≤ historyDivs j := by exact_mod_cast two_le_historyDivs j
      rw [resolution] at h1
      rw [historyLengthOf_first (hfirst hl),resolution]
      split <;> linarith
  · intro i j hij
    by_cases hl : 1<u.historyLen
    · have hs : (fullSlots u i : ℚ) ≤ fullSlots u j := by
        exact_mod_cast min_le_min_left _ (historyDivs_monotone hij)
      rw [(historyLengthOf_later hl i).1,(historyLengthOf_later hl j).1,resolution]
      linarith
    · rw [historyLengthOf_first (hfirst hl),historyLengthOf_first (hfirst hl)]
  · intro j
    rw [invHistLen,if_pos (hpos j)]
  · intro line
    simp only [HostPairLine.divide,if_pos (hpos _)]

/-- The part of the state that the lengths are computed from. -/
def ring (u : Ui) : Slot×ℕ×ℚ := (u.historyPos,u.historyLen,u.slotElapsed)

/-- States with the same ring count the same rotations. -/
theorem Counted.of_ring {v : Ui} (h : Counted rotated u) (hr : ring v=ring u) :
    Counted rotated v := by
  obtain ⟨hp,hl,he⟩ : v.historyPos=u.historyPos ∧ v.historyLen=u.historyLen ∧
      v.slotElapsed=u.slotElapsed := by simpa [ring] using hr
  refine ⟨?_,?_,?_,?_⟩
  · rw [hp,h.pos]
  · rw [hl,h.len]
  · rw [he]
    exact h.elapsed_nonneg
  · rw [he]
    exact h.elapsed_le

/-- The loop of a rotation does not move the ring. -/
theorem rotateLoop_ring (pos : Slot) (fuel : ℕ) :
    ∀ node s,(rotateLoop pos fuel node s).historyPos=s.historyPos ∧
      (rotateLoop pos fuel node s).historyLen=s.historyLen := by
  induction fuel with
  | zero => exact fun _ _ => ⟨rfl,rfl⟩
  | succ fuel ih =>
    intro node s
    cases node with
    | none => exact ⟨rfl,rfl⟩
    | some node =>
      rw [rotateLoop]
      dsimp only
      split
      · exact ih _ _
      · exact ih _ _

/-- A rotation moves the ring by one slot. -/
theorem historyRotate_ring (s : Capture) :
    (historyRotate s).historyPos=nextSlot s.historyPos ∧ (historyRotate s).historyLen=
      if s.historyLen<historyLength then s.historyLen+1 else s.historyLen := by
  unfold historyRotate rotateEnd
  dsimp only
  obtain ⟨hp,hl⟩ := rotateLoop_ring (nextSlot s.historyPos) s.history.nodes.length
    (hashNextItem s.history none) {s with historyPos := nextSlot s.historyPos}
  rw [hp,hl]
  exact ⟨rfl,rfl⟩

/-- A packet moves neither ring nor clock. -/
theorem handleIpPacket_ring (env : Env) (iptr : Packet) (hwDir : ℤ) (s : Capture) :
    (handleIpPacket env iptr hwDir s).historyPos=s.historyPos ∧
      (handleIpPacket env iptr hwDir s).historyLen=s.historyLen := by
  unfold handleIpPacket
  cases account env iptr hwDir with
  | none => exact ⟨rfl,rfl⟩
  | some a => exact ⟨(recordPacket_ring env a s).1,(recordPacket_ring env a s).2.1⟩

/-- A flow on the screen moves neither. -/
theorem analyseFlow_ring (env : Env) (u : Ui) (n : ChainTable.Node AddrPair ℕ) :
    ring (analyseFlow env u n)=ring u := by
  unfold analyseFlow findOrCreateLine
  cases addrHashFind u.screenHash (aggregate env.options n.key) <;> rfl

/-- A fold of steps that keep the ring keeps the ring. -/
theorem foldl_ring {β : Type} {f : Ui→β→Ui} (hf : ∀ u b,ring (f u b)=ring u) (bs : List β)
    (u : Ui) :
    ring (bs.foldl f u)=ring u := by
  induction bs generalizing u with
  | nil => rfl
  | cons b bs ih => rw [List.foldl_cons,ih,hf]

/-- An analysis moves neither ring nor clock. -/
theorem analyseData_ring (env : Env) (hostName : AddressFamily→In6Addr→Option (List Char))
    (u : Ui) : ring (analyseData qsort env hostName u)=ring u := by
  have hsorted (items : List ℕ) (u : Ui) :
      ring (sortedListInsertBatch qsort env items u)=ring u := by
    unfold sortedListInsertBatch
    dsimp only
    split <;> rfl
  have hmake (u : Ui) : ring (makeScreenList qsort env hostName u)=ring u := by
    unfold makeScreenList
    dsimp only
    split
    · rfl
    · rw [hsorted]
      split <;> rfl
  have htotals (u : Ui) : ring (calculateTotals u)=ring u := by
    obtain ⟨hcap,-,-,-,hel,-⟩ := calculateTotals_spec u
    rw [ring,ring,hcap,hel]
  unfold analyseData
  dsimp only
  split
  · rfl
  · rw [htotals,hmake,foldl_ring (analyseFlow_ring env)]
    split <;> rfl

/-- At the start no rotation is counted. -/
theorem counted_init (start : Timeval) : Counted 0 (initClocked start).toUi := by
  refine ⟨rfl,rfl,le_refl 0,?_⟩
  exact zero_le_one

/-- A rotation adds one to the rotations counted. -/
theorem Counted.rotate {s : Capture} (h : Counted rotated u) (hu : u.toCapture=s) :
    Counted (rotated+1) {u with toCapture := historyRotate s} := by
  obtain ⟨hp,hl⟩ := historyRotate_ring s
  subst hu
  have hpos := h.pos
  have hlen := h.len
  refine ⟨?_,?_,h.elapsed_nonneg,h.elapsed_le⟩
  · dsimp only
    have hnext : (nextSlot u.historyPos).val=(u.historyPos.val+1)%historyLength := rfl
    rw [hp,hnext,hpos,Nat.mod_add_mod]
  · dsimp only
    rw [hl,hlen]
    simp only [historyLength]
    split <;> omega

/-- The elapsed part of the slot is cut down to one slot. -/
theorem Counted.setElapsed (h : Counted rotated u) (diff : ℚ) :
    Counted rotated (setSlotElapsed diff u) := by
  refine ⟨h.pos,h.len,?_,?_⟩
  · dsimp only [setSlotElapsed,resolution]
    split_ifs <;> linarith
  · dsimp only [setSlotElapsed]
    split_ifs with h1 h2 h2
    · exact le_refl _
    · exact not_lt.mp h2
    · exact le_refl _
    · exact not_lt.mp h2

/-- The display part of a tick finds its rotation counted. -/
theorem beforeDisplay_counted {s : Clocked} (now : Timeval) (h : Counted rotated s.toUi) :
    Counted (rotated+if rotates now s then 1 else 0) (beforeDisplay now s).toUi := by
  unfold beforeDisplay tickElapsed tickRotate
  apply Counted.setElapsed
  split
  · exact h.rotate rfl
  · exact h

/-- The display part itself moves neither ring nor clock. -/
theorem tick_ring (a : TickArgs) (s : Clocked) :
    ring (tick qsort a s).toUi=ring (beforeDisplay a.now s).toUi := by
  unfold tick
  dsimp only
  generalize beforeDisplay a.now s=s₁
  -- whether the socket table is refreshed, then whether there is a repaint
  split
  · split
    · exact analyseData_ring ..
    · rfl
  · split
    · exact analyseData_ring ..
    · rfl

/-- Every call adds its rotations to those counted. -/
theorem clockStep_counted {s : Clocked} (e : ClockEvent) (h : Counted rotated s.toUi) :
    Counted (rotated+stepRotations s e) (clockStep qsort s e).toUi := by
  cases e with
  | tick a => exact (beforeDisplay_counted a.now h).of_ring (tick_ring qsort a s)
  | packet env iptr hwDir =>
    obtain ⟨hp,hl⟩ := handleIpPacket_ring env iptr hwDir s.toCapture
    exact h.of_ring (by simp only [ring,clockStep,hp,hl])

/-- Every run of calls counts its rotations. -/
theorem clockRun_counted (start : Timeval) (es : List ClockEvent) :
    Counted (rotations qsort (initClocked start) es) (clockRun qsort start es).toUi := by
  have hrun : ∀ (s : Clocked) (rotated : ℕ),Counted rotated s.toUi→
      Counted (rotated+rotations qsort s es) (es.foldl (clockStep qsort) s).toUi := by
    induction es with
    | nil => exact fun s rotated h => h
    | cons e es ih =>
      intro s rotated h
      have hs := ih _ _ (clockStep_counted qsort e h)
      rwa [add_assoc] at hs
  have h := hrun _ 0 (counted_init start)
  rwa [zero_add] at h

/-- In every run of ticks with arbitrary clock readings, and of packets between
them, ring and clock count the rotations and the divisors make sense, both
after every call and in the state that the display part of a tick works on. -/
theorem divisors_sane (start : Timeval) (es : List ClockEvent) :
    let s := clockRun qsort start es
    let rotated := rotations qsort (initClocked start) es
    (Counted rotated s.toUi ∧ Sane s.toUi) ∧
      ∀ now,Counted (rotated+if rotates now s then 1 else 0) (beforeDisplay now s).toUi ∧
        Sane (beforeDisplay now s).toUi := by
  intro s rotated
  have h : Counted rotated s.toUi := clockRun_counted qsort start es
  refine ⟨⟨h,h.sane⟩,fun now => ?_⟩
  have hb := beforeDisplay_counted now h
  exact ⟨hb,hb.sane⟩

end IftopColor.TickClock
