import IftopColor.SlotTimes
import IftopColor.LineOrder
import IftopColor.BatchInsertion
import IftopColor.ScreenList
import IftopColor.ScreenRows

/-!
# The busiest rows

From packets to rows. Packets of the last slots are the flows of the history, flows make lines,
`qsort` puts the lines in order and `ui_print` draws a slice of them. In the bandwidth modes no
two lines of which have the same traffic, the rows are therefore the busiest of all pairs of
hosts that have exchanged a packet in the last slots, in the order of their bytes.
-/

namespace IftopColor.BusiestRows

open ChainTable RecordStore AddrHash Options PacketDirection History FlowAccounting Screen
open ScreenTotals ScreenList TickClock SlotTimes StableInsertion SortedList BatchInsertion LineOrder
open ScreenRows

/-- Each entry of a list on a scale of its own: the order of lists does not change. -/
theorem map_scaled_le_iff {ι α β : Type} [LinearOrder α] [LinearOrder β] {scale : ι→α→β}
    (hs : ∀ i,StrictMono (scale i)) (is : List ι) (f g : ι→α) :
    is.map (fun i => scale i (f i))≤ is.map (fun i => scale i (g i)) ↔ is.map f≤ is.map g := by
  induction is with
  | nil => simp only [List.map_nil]; exact ⟨fun _ => le_rfl,fun _ => le_rfl⟩
  | cons i is ih =>
    simp only [List.map_cons]
    rw [le_iff_lt_or_eq,le_iff_lt_or_eq (a:=f i::is.map f),List.cons_lt_cons_iff,
      List.cons_lt_cons_iff,(hs i).lt_iff_lt,List.cons_eq_cons,List.cons_eq_cons,
      (hs i).injective.eq_iff,or_assoc,or_assoc,←and_or_left,←and_or_left,←le_iff_lt_or_eq,
      ←le_iff_lt_or_eq,ih]

/-- What a column counts. -/
inductive Side where
  | sent
  | recv
  | both

/-- A column of the comparison. -/
abbrev Column := Side×Division

/-- The divisions that a sort mode compares. -/
def sortDivisions : SortColumn→List Division
  | .div1 => [0,1,2]
  | .div2 => [1,2]
  | .div3 => [2]
  | .src => [2]
  | .dest => [2]

/-- The columns that a sort mode compares, the first one first. -/
def sortColumns (o : OptionsT) : List Column :=
  let oneLine :=
    match o.linedisplay with
    | .oneLineSent => (sortDivisions o.sort).map fun j => (.sent,j)
    | .oneLineRecv => (sortDivisions o.sort).map fun j => (.recv,j)
    | .twoLine => []
    | .oneLineBoth => []
  oneLine++(sortDivisions o.sort).map fun j => (.both,j)

/-- The rate of a line in a column. -/
def lineRate (line : HostPairLine) : Column→ℚ
  | (.sent,j) => line.sent j
  | (.recv,j) => line.recv j
  | (.both,j) => line.recv j+line.sent j

/-- Bytes of the packets of a pair of hosts in a column. -/
def columnBytes (o : OptionsT) (log : SlotLog) (k : AddrPair) : Column→ℕ
  | (.sent,j) => log.bytes sentLen (fun a => aggregate o a.key=k) j
  | (.recv,j) => log.bytes recvLen (fun a => aggregate o a.key=k) j
  | (.both,j) => log.bytes recvLen (fun a => aggregate o a.key=k) j+
      log.bytes sentLen (fun a => aggregate o a.key=k) j

/-- The traffic of a pair of hosts, as far as a sort mode compares it. -/
def traffic (o : OptionsT) (log : SlotLog) (k : AddrPair) : List ℕ :=
  (sortColumns o).map (columnBytes o log k)

/-- A pair of hosts with a packet in the last forty slots. -/
def Active (o : OptionsT) (log : SlotLog) (k : AddrPair) : Prop :=
  ∃ i<40,∃ a∈log.packetsAt i,aggregate o a.key=k

/-- Sorting by rates. -/
def ByRates (o : OptionsT) : Prop := o.sort≠.src ∧ o.sort≠.dest

/-- In the bandwidth modes the key of a line are the rates of its columns. -/
theorem sortKey_le_iff {o : OptionsT} (h : ByRates o) (aa bb : HostPairLine) :
    sortKey o aa≤ sortKey o bb ↔
      (sortColumns o).map (lineRate bb)≤(sortColumns o).map (lineRate aa) := by
  have hcols (line : HostPairLine) :
      (sortColumns o).map (lineRate line)=bandwidthKey o (sortDivisions o.sort) line := by
    unfold sortColumns bandwidthKey
    rw [List.map_append,List.map_map]
    cases o.linedisplay <;> simp only [List.map_map,List.map_nil] <;> rfl
  obtain ⟨hsrc,hdest⟩ := h
  rw [hcols,hcols]
  unfold sortKey
  cases hs : o.sort with
  | src => exact absurd hs hsrc
  | dest => exact absurd hs hdest
  | div1 => simp [Prod.Lex.le_iff,sortDivisions]
  | div2 => simp [Prod.Lex.le_iff,sortDivisions]
  | div3 => simp [Prod.Lex.le_iff,sortDivisions]

variable {u : Ui}

/-- Every line carries its key, and comes from one of some flows. -/
def Stems (o : OptionsT) (ns : List (Node AddrPair ℕ)) (es : List (AddrPair×HostPairLine)) : Prop :=
  ∀ e∈es,e.2.ap=e.1 ∧ ∃ n∈ns,aggregate o n.key=e.1

/-- A round of the loop does not change the key of a line. -/
theorem addRound_ap (env : Env) (key : AddrPair) (pos : Slot) (hist : HistoryType)
    (line : HostPairLine) : (addRound env key pos hist line).ap=line.ap := by
  have hattr : (attributeProcess env key line hist).1.ap=line.ap := by
    unfold attributeProcess
    split
    · split
      · rfl
      · split <;> rfl
    · rfl
  rw [addRound,HostPairLine.addFlow,accumulate_eq]
  exact hattr

/-- The loop keeps the state well formed. -/
theorem analyseLoop_wf (hw : UiWf u) (env : Env) (ns : List (Node AddrPair ℕ)) :
    UiWf (ns.foldl (Screen.analyseFlow env) u) := by
  induction ns generalizing u with
  | nil => exact hw
  | cons n ns ih => exact ih (analyseFlow_spec env hw n).2.1

/-- The loop makes lines for the flows it visits. -/
theorem analyseLoop_stems (env : Env) (ns : List (Node AddrPair ℕ)) :
    ∀ (visited : List (Node AddrPair ℕ)) (u : Ui),UiWf u→Stems env.options visited (lines u)→
      Stems env.options (visited++ns) (lines (ns.foldl (analyseFlow env) u)) := by
  induction ns with
  | nil =>
    intro visited u _ hs
    rwa [List.append_nil]
  | cons n ns ih =>
    intro visited u hw hs
    obtain ⟨-,hw',hp⟩ := analyseFlow_spec env hw n
    have hone : Stems env.options (visited++[n]) (lines (analyseFlow env u n)) := by
      intro e he
      have hvisit {m : Node AddrPair ℕ} (hm : m∈visited) : m∈visited++[n] :=
        List.mem_append_left _ hm
      rcases mem_upsert.mp (hp.subset he) with ⟨-,he⟩|⟨hk,⟨line,he,hl⟩|⟨-,hl⟩⟩
      · obtain ⟨hap,m,hm,hkey⟩ := hs e he
        exact ⟨hap,m,hvisit hm,hkey⟩
      · obtain ⟨hap,m,hm,hkey⟩ := hs _ he
        rw [hl,addRound_ap,hk]
        exact ⟨hap,m,hvisit hm,hkey⟩
      · rw [hl,addRound_ap,hk]
        exact ⟨rfl,n,List.mem_append_right _ List.mem_cons_self,rfl⟩
    have hall := ih (visited++[n]) (analyseFlow env u n) hw' hone
    rwa [List.append_assoc] at hall

section Analyse

variable (qsort : (ℕ→ℕ→Bool)→List ℕ→List ℕ) (env : Env)
  (hostName : AddressFamily→ In6Addr→Option (List Char))

/-- The lines are scaled and given to `qsort` all together. -/
theorem makeScreenList_byRates (hw : UiWf u) (hf : env.options.freezeorder=false)
    (hb : ByRates env.options) (hl : u.screenList=[]) :
    let u' := makeScreenList qsort env hostName u
    u'.screenHash=u.screenHash ∧
      u'.lineMem=forEach (HostPairLine.scale (invHistLen u)) u.screenHash.nodes u.lineMem ∧
      u'.screenList=if lineRecords u=[] then [] else
        qsort (fun a b => screenLineCompare env.options (u'.lineMem a) (u'.lineMem b))
          (lineRecords u) := by
  have hitems : hashItems u.screenHash=u.screenHash.nodes := hashItems_eq hw.linked.addrs
  have hsort : ¬(env.options.sort=.src ∨ env.options.sort=.dest) := not_or.mpr hb
  unfold makeScreenList Screen.sortedListInsertBatch
  dsimp only
  rw [if_neg (by simp [hf]),if_neg hsort,hitems]
  split
  · exact ⟨rfl,rfl,hl⟩
  · exact ⟨rfl,rfl,rfl⟩

/-- What an unfrozen analysis in a bandwidth mode lists. -/
structure Listed (o : OptionsT) (u u' : Ui) : Prop where
  /-- Lines are owned by one node each. -/
  records : (lineRecords u').Nodup
  /-- There is one line for each key. -/
  nodup : (keys (lines u')).Nodup
  /-- Lines carry their keys and come from flows. -/
  stems : Stems o u.history.nodes (lines u')
  /-- The list is what `qsort` makes of all lines. -/
  list : u'.screenList=if lineRecords u'=[] then [] else
    qsort (fun a b => screenLineCompare o (u'.lineMem a) (u'.lineMem b)) (lineRecords u')

/-- An analysis that is neither paused nor frozen begins without lines and goes through all
flows. -/
theorem analyseData_emptied (hw : UiWf u) (hp : env.options.paused=false)
    (hf : env.options.freezeorder=false) :
    ∃ u₁,UiWf u₁ ∧ lines u₁=[] ∧ u₁.screenList=[] ∧ analyseData qsort env hostName u=
      calculateTotals (makeScreenList qsort env hostName
        (u.history.nodes.foldl (analyseFlow env) u₁)) := by
  have hw₀ : UiWf {u with totals := HostPairLine.zero} :=
    ⟨hw.capture,hw.linked,hw.fresh,hw.length,hw.elapsed⟩
  obtain ⟨hk₁,hw₁,-⟩ := screenHashReset_spec env.options {u with totals := HostPairLine.zero} hw₀
  have he₁ : lines (screenHashReset (screenListClear {u with totals := HostPairLine.zero}))=[] := by
    simp [lines,screenHashReset,addrHashDeleteAllFree,entries]
  refine ⟨_,hw₁,he₁,rfl,?_⟩
  unfold analyseData
  rw [if_neg (by simp [hp])]
  dsimp only
  rw [if_neg (by simp [hf]),hashItems_eq hw₁.capture.linked.addrs,hk₁.history]

/-- An analysis that is neither paused nor frozen lists its lines. -/
theorem analyseData_listed (hw : UiWf u) (hp : env.options.paused=false)
    (hf : env.options.freezeorder=false) (hb : ByRates env.options) :
    Listed qsort env.options u (analyseData qsort env hostName u) := by
  obtain ⟨u₁,hw₁,he₁,hl₁,hu⟩ := analyseData_emptied qsort env hostName hw hp hf
  rw [hu]
  have hw₂ := analyseLoop_wf hw₁ env u.history.nodes
  have hl₂ := (analyseLoop_list env u.history.nodes u₁).1.trans hl₁
  have hnone : Stems env.options [] (lines u₁) := by simp [Stems,he₁]
  have hst := analyseLoop_stems env u.history.nodes [] u₁ hw₁ hnone
  rw [List.nil_append] at hst
  generalize u.history.nodes.foldl (analyseFlow env) u₁=u₂ at hw₂ hl₂ hst ⊢
  obtain ⟨hh₃,hm₃,hl₃⟩ := makeScreenList_byRates qsort env hostName hw₂ hf hb hl₂
  have hw₃ := (makeScreenList_spec qsort env hostName hw₂).2.1
  generalize makeScreenList qsort env hostName u₂=u₃ at hh₃ hm₃ hl₃ hw₃ ⊢
  obtain ⟨-,hh₄,hm₄,-,-,-⟩ := calculateTotals_spec u₃
  obtain ⟨hl₄,-⟩ := calculateTotals_list u₃
  have hrec : lineRecords (calculateTotals u₃)=lineRecords u₂ := by
    rw [lineRecords,hh₄,hh₃]
  have hlines : lines (calculateTotals u₃)=
      (lines u₂).map fun e => (e.1,e.2.scale (invHistLen u₂)) := by
    rw [lines,hh₄,hm₄,hh₃,hm₃,entries_forEach hw₂.linked,lines]
  refine ⟨hrec ▸ hw₂.linked.records,?_,?_,?_⟩
  · rw [hlines,keys,List.map_map]
    exact hw₂.nodup
  · rw [hlines]
    intro e' he'
    obtain ⟨e,he,rfl⟩ := List.mem_map.mp he'
    exact hst e he
  · rw [hl₄,hl₃,hrec,hm₄]

/-- After an analysis that is not paused every flow has a line, at its aggregated key. -/
theorem analyseData_present (hw : UiWf u) (hp : env.options.paused=false) :
    ∀ k∈keys (flows u.toCapture),
      aggregate env.options k∈keys (lines (analyseData qsort env hostName u)) := by
  intro k hk
  obtain ⟨u₃,hu₃,hkept,-,hrated⟩ := analyseData_spec qsort env hostName hw hp
  obtain ⟨-,hh,hm,-⟩ := calculateTotals_spec u₃
  have hlines : lines (calculateTotals u₃)=lines u₃ := by rw [lines,hh,hm,lines]
  have hsame : keys (flows u₃.toCapture)=keys (flows u.toCapture) := by
    rw [flows,flows,keys_entries,keys_entries,hkept.history]
  rw [←hsame] at hk
  obtain ⟨e,he,rfl⟩ := List.mem_map.mp hk
  rw [hu₃,hlines]
  exact hrated.present e he

end Analyse

/-- The comparison of two lines through their pointers. -/
def pointerCompare (o : OptionsT) (mem : ℕ→HostPairLine) (a b : ℕ) : ℤ := lineCompare o (mem a) (mem b)

/-- `qsort` and the wrapper that it is given, for an answer that is zero or one. -/
def wrapped (q : (ℕ→ℕ→ℤ)→List ℕ→List ℕ) : (ℕ→ℕ→Bool)→List ℕ→List ℕ :=
  fun compare => q (qsortCompareWrapper fun a b => if compare a b then 1 else 0)

/-- Pointers of lines are compared by the keys of the lines. -/
theorem pointerCompare_contract (o : OptionsT) (mem : ℕ→HostPairLine) :
    Contract (fun a => sortKey o (mem a)) (pointerCompare o mem) := by
  intro a b hne
  unfold pointerCompare lineCompare
  by_cases h : screenLineCompare o (mem a) (mem b)=true
  · have hle := screenLineCompare_iff.mp h
    rw [if_pos h]
    exact ⟨fun _ => lt_of_le_of_ne hle hne.symm,fun _ => Int.one_pos⟩
  · have hle := mt screenLineCompare_iff.mpr h
    rw [if_neg h]
    exact ⟨fun h0 => absurd h0 (lt_irrefl _),fun hlt => absurd hlt.le hle⟩

/-- Lines with different keys are listed in the order of their keys. -/
theorem Listed.ordered {q : (ℕ→ℕ→ℤ)→List ℕ→List ℕ} (hq : Qsorts q) {o : OptionsT} {u' : Ui}
    (h : Listed (wrapped q) o u u')
    (hd : ((lineRecords u').map fun a => sortKey o (u'.lineMem a)).Nodup) :
    u'.screenList.Perm (lineRecords u') ∧
      u'.screenList.Pairwise fun a b => sortKey o (u'.lineMem a)< sortKey o (u'.lineMem b) := by
  have hc := pointerCompare_contract o u'.lineMem
  have hnonneg : ∀ a∈lineRecords u',∀ b∈lineRecords u',
      sortKey o (u'.lineMem a)≠sortKey o (u'.lineMem b)→0≤ pointerCompare o u'.lineMem a b := by
    intro a _ b _ _
    unfold pointerCompare lineCompare
    split <;> decide
  have hbatch := batchAgrees_of_nonneg hc hd hnonneg q hq
  have hlist : u'.screenList=contents (insertAll (pointerCompare o u'.lineMem) (lineRecords u')) := by
    rw [←hbatch,batch_contents hq,h.list]
    rfl
  obtain ⟨hp,ho⟩ := insertAll_ordered hc hd
  rw [←hlist] at hp ho
  have hne : u'.screenList.Pairwise fun a b =>
      sortKey o (u'.lineMem a)≠sortKey o (u'.lineMem b) := by
    have hnodup := ((hp.map fun a => sortKey o (u'.lineMem a)).nodup_iff).mpr hd
    exact List.pairwise_map.mp hnodup
  exact ⟨hp,(ho.and hne).imp fun hab => lt_of_le_of_ne hab.1 hab.2⟩

/-- The list in memory, whose nodes point to lines: a batch that replaces an empty list. -/
def screenListOf (q : (ℕ→ℕ→ℤ)→List ℕ→List ℕ) (o : OptionsT) (list : SortedListType ℕ) (u : Ui) :
    SortedListType ℕ :=
  SortedList.sortedListInsertBatch q (pointerCompare o u.lineMem) (lineRecords u) list

/-- The list with the lines in place of the pointers to them. -/
def dereferenced (mem : ℕ→HostPairLine) (list : SortedListType ℕ) : SortedListType HostPairLine where
  rootNext := list.rootNext
  batchAllocated := list.batchAllocated
  heap := fun a => (list.heap a).map fun n => ⟨n.next,mem n.data⟩
  blockLen := list.blockLen
  brk := list.brk

/-- The nodes of the list with the lines. -/
theorem dereferenced_heap (mem : ℕ→HostPairLine) (list : SortedListType ℕ) (a : ℕ) :
    (dereferenced mem list).heap a=(list.heap a).map fun n => ⟨n.next,mem n.data⟩ := rfl

/-- The items of the list with the lines. -/
theorem dereferenced_represents {mem : ℕ→HostPairLine} {list : SortedListType ℕ}
    {cells : List (ℕ×ℕ)} (h : Represents list cells) :
    Represents (dereferenced mem list) (cells.map fun c => (c.1,mem c.2)) := by
  have hnext : (dereferenced mem list).next=list.next := by
    funext a
    rw [SortedListType.next,SortedListType.next,dereferenced_heap]
    cases list.heap a <;> rfl
  refine ⟨?_,?_⟩
  · rw [hnext,List.map_map]
    exact h.chain
  · intro c hc
    obtain ⟨c,hm,rfl⟩ := List.mem_map.mp hc
    have hs := h.stored c hm
    refine ⟨?_,hs.lt⟩
    have hdata := congrArg (Option.map mem) hs.data
    rw [Option.map_map] at hdata
    rw [dereferenced_heap,Option.map_map]
    exact hdata

/-- The list in memory holds the lines in the order of `screenList`. -/
theorem Listed.represents {q : (ℕ→ℕ→ℤ)→List ℕ→List ℕ} (hq : Qsorts q) {o : OptionsT} {u' : Ui}
    (h : Listed (wrapped q) o u u') {list : SortedListType ℕ} (hl : Represents list []) :
    ∃ cells,Represents (dereferenced u'.lineMem (screenListOf q o list u')) cells ∧
      cells.map Prod.snd=u'.screenList.map u'.lineMem := by
  have hperm := (hq (qsortCompareWrapper (pointerCompare o u'.lineMem)) (lineRecords u')).1
  obtain ⟨cells,hr,hd⟩ := sortedListInsertBatch_represents (pointerCompare o u'.lineMem) hperm hl
  refine ⟨_,dereferenced_represents hr,?_⟩
  have hsnd : (cells.map fun c => (c.1,u'.lineMem c.2)).map Prod.snd=
      (cells.map Prod.snd).map u'.lineMem := by
    rw [List.map_map,List.map_map]
    rfl
  rw [hsnd,hd,h.list]
  rfl

/-- The keys of the lines in the order of the list. -/
def listedKeys (u : Ui) : List AddrPair := u.screenList.map fun a => (u.lineMem a).ap

/-- The lines, without their keys, are what the pointers of the table lead to. -/
theorem lines_records (u : Ui) :
    (lines u).map Prod.snd=(lineRecords u).map u.lineMem := by
  rw [lines,entries,lineRecords,List.map_map,List.map_map]
  rfl

/-- The listed keys are those of the lines. -/
theorem Listed.keys_perm {qsort : (ℕ→ℕ→Bool)→List ℕ→List ℕ} {o : OptionsT} {u' : Ui}
    (h : Listed qsort o u u') (hp : u'.screenList.Perm (lineRecords u')) :
    (listedKeys u').Perm (keys (lines u')) := by
  have hkeys : keys (lines u')=(lineRecords u').map fun a => (u'.lineMem a).ap := by
    have hsnd := congrArg (List.map HostPairLine.ap) (lines_records u')
    rw [List.map_map,List.map_map] at hsnd
    refine Eq.trans (List.map_congr_left fun e he => ?_) hsnd
    exact (h.stems e he).1.symm
  rw [hkeys]
  exact hp.map _

/-- The pairs of a log are those of the flows. -/
theorem flows_active_iff {s : Capture} {log : SlotLog} (hf : Follows s log.packetsAt)
    (o : OptionsT) (k : AddrPair) :
    (∃ k'∈keys (flows s),aggregate o k'=k) ↔ Active o log k := by
  constructor
  · rintro ⟨k',hk',rfl⟩
    obtain ⟨e,he,rfl⟩ := List.mem_map.mp hk'
    obtain ⟨i,hi,-,⟨a,ha,hak⟩,-⟩ := hf.last e he
    exact ⟨i,hi,a,ha,by rw [hak]⟩
  · rintro ⟨i,hi,a,ha,rfl⟩
    exact ⟨a.key,hf.present i hi a ha,rfl⟩

/-- An unfrozen analysis has a line for exactly the active pairs of hosts. -/
theorem Listed.active_iff {qsort : (ℕ→ℕ→Bool)→List ℕ→List ℕ} {o : OptionsT} {u' : Ui}
    {log : SlotLog} (h : Listed qsort o u u') (hf : Follows u.toCapture log.packetsAt)
    (hrows : ∀ k∈keys (flows u.toCapture),aggregate o k∈keys (lines u')) (k : AddrPair) :
    k∈keys (lines u') ↔ Active o log k := by
  rw [←flows_active_iff hf]
  constructor
  · intro hk
    obtain ⟨e,he,rfl⟩ := List.mem_map.mp hk
    obtain ⟨-,n,hn,hkey⟩ := h.stems e he
    have hflow : (n.key,u.histMem n.record)∈flows u.toCapture := List.mem_map_of_mem hn
    exact ⟨n.key,List.mem_map_of_mem hflow,hkey⟩
  · rintro ⟨k',hk',rfl⟩
    exact hrows k' hk'

/-- Every line has the rates of its pair of hosts. -/
def Rates (o : OptionsT) (log : SlotLog) (length : Division→ℚ) (u : Ui) : Prop :=
  ∀ e∈lines u,∀ j,
    e.2.recv j=(log.bytes recvLen (fun a => aggregate o a.key=e.1) j : ℕ)/length j ∧
      e.2.sent j=(log.bytes sentLen (fun a => aggregate o a.key=e.1) j : ℕ)/length j

/-- Lines are ordered by the bytes of their packets. -/
theorem Rates.sortKey_le_iff {o : OptionsT} {log : SlotLog} {length : Division→ℚ} (hb : ByRates o)
    (hpos : ∀ j,0<length j) (h : Rates o log length u) {e e' : AddrPair×HostPairLine}
    (he : e∈lines u) (he' : e'∈lines u) :
    sortKey o e.2≤ sortKey o e'.2 ↔ traffic o log e'.1≤ traffic o log e.1 := by
  have hmono (c : Column) : StrictMono fun n : ℕ => (n : ℚ)/length c.2 := by
    intro m n hmn
    have hlt : (m : ℚ)<n := by exact_mod_cast hmn
    exact div_lt_div_of_pos_right hlt (hpos c.2)
  have hrates {e : AddrPair×HostPairLine} (he : e∈lines u) : (sortColumns o).map (lineRate e.2)=
      (sortColumns o).map fun c => (columnBytes o log e.1 c : ℚ)/length c.2 := by
    refine List.map_congr_left fun c _ => ?_
    obtain ⟨side,j⟩ := c
    obtain ⟨hrecv,hsent⟩ := h e he j
    cases side with
    | sent => exact hsent
    | recv => exact hrecv
    | both =>
      have hsum : ((log.bytes recvLen (fun a => aggregate o a.key=e.1) j+
          log.bytes sentLen (fun a => aggregate o a.key=e.1) j : ℕ) : ℚ)/length j=
          e.2.recv j+e.2.sent j := by
        rw [hrecv,hsent,Nat.cast_add,add_div]
      exact hsum.symm
  rw [BusiestRows.sortKey_le_iff hb,hrates he,hrates he',traffic,traffic]
  exact map_scaled_le_iff hmono _ _ _

/-- A pointer in the table of lines leads to one of the lines. -/
theorem exists_line {a : ℕ} (ha : a∈lineRecords u) : ∃ e∈lines u,e.2=u.lineMem a := by
  have hm : u.lineMem a∈(lines u).map Prod.snd := by
    rw [lines_records]
    exact List.mem_map_of_mem ha
  exact List.mem_map.mp hm

/-- The keys are listed from the busiest pair of hosts on, if no two pairs have the same
traffic. -/
theorem Listed.busiest_first {q : (ℕ→ℕ→ℤ)→List ℕ→List ℕ} (hq : Qsorts q) {o : OptionsT} {u' : Ui}
    {log : SlotLog} {length : Division→ℚ} (h : Listed (wrapped q) o u u') (hb : ByRates o)
    (hpos : ∀ j,0<length j) (hr : Rates o log length u')
    (hd : ∀ k∈keys (lines u'),∀ k'∈keys (lines u'),k≠k'→traffic o log k≠traffic o log k') :
    (listedKeys u').Perm (keys (lines u')) ∧
      (listedKeys u').Pairwise fun k k' => traffic o log k'< traffic o log k := by
  have hline {a : ℕ} (ha : a∈lineRecords u') :
      ∃ e∈lines u',e.2=u'.lineMem a ∧ (u'.lineMem a).ap=e.1 := by
    obtain ⟨e,he,heq⟩ := exists_line ha
    exact ⟨e,he,heq,by rw [←heq,(h.stems e he).1]⟩
  have hle {a b : ℕ} (ha : a∈lineRecords u') (hb' : b∈lineRecords u') :
      sortKey o (u'.lineMem a)≤ sortKey o (u'.lineMem b) ↔
        traffic o log (u'.lineMem b).ap≤ traffic o log (u'.lineMem a).ap := by
    obtain ⟨e,he,heq,hk⟩ := hline ha
    obtain ⟨e',he',heq',hk'⟩ := hline hb'
    rw [hk,hk',←heq,←heq']
    exact hr.sortKey_le_iff hb hpos he he'
  have hdist : ((lineRecords u').map fun a => sortKey o (u'.lineMem a)).Nodup := by
    refine List.Nodup.map_on ?_ h.records
    intro a ha b hb' hab
    by_contra hne
    have haps : (u'.lineMem a).ap≠(u'.lineMem b).ap := by
      have hnodup : ((lineRecords u').map fun a => (u'.lineMem a).ap).Nodup := by
        have hk := congrArg (List.map HostPairLine.ap) (lines_records u')
        rw [List.map_map,List.map_map] at hk
        have hkeys : (lines u').map (HostPairLine.ap∘Prod.snd)=keys (lines u') :=
          List.map_congr_left fun e he => (h.stems e he).1
        rw [hkeys] at hk
        exact hk ▸ h.nodup
      exact fun heq => hne (List.inj_on_of_nodup_map hnodup ha hb' heq)
    obtain ⟨e,he,-,hk⟩ := hline ha
    obtain ⟨e',he',-,hk'⟩ := hline hb'
    refine hd _ (List.mem_map_of_mem he) _ (List.mem_map_of_mem he') (hk ▸ hk' ▸ haps) ?_
    rw [←hk,←hk']
    exact le_antisymm ((hle hb' ha).mp hab.ge) ((hle ha hb').mp hab.le)
  obtain ⟨hp,ho⟩ := h.ordered hq hdist
  refine ⟨h.keys_perm hp,List.pairwise_map.mpr ?_⟩
  refine List.Pairwise.imp_of_mem ?_ ho
  intro a b ha hb' hlt
  exact lt_of_not_ge fun hge => hlt.not_ge ((hle (hp.subset hb') (hp.subset ha)).mpr hge)

/-- The keys of the rows of a slice, when it depends on the key whether a line is kept. -/
theorem slice_keys {p : Print} {passes : AddrPair→Bool}
    (hpass : ∀ node line,(p.screenFilterMatch (p.sprintHosts node line).1 ||
      p.screenFilterMatch (p.sprintHosts node line).2)=passes line.ap)
    (y : ℤ) (cells : List (ℕ×HostPairLine)) :
    (slice p y cells).map (fun row => row.screenLine.ap)=
      (((cells.map fun c => c.2.ap).drop p.screenOffset).filter passes).take (rowsFit p y) := by
  have hkept (cells : List (ℕ×HostPairLine)) :
      (kept p cells).map (fun c => c.2.ap)=(cells.map fun c => c.2.ap).filter passes := by
    rw [List.filter_map,kept]
    refine congrArg (List.map _) (List.filter_congr fun c _ => ?_)
    exact hpass c.1 c.2
  have hzip (cells : List (ℕ×HostPairLine)) (n : ℕ) :
      ((cells.zipIdx n).map (rowOf p y)).map (fun row => row.screenLine.ap)=
        cells.map fun c => c.2.ap := by
    rw [List.map_map]
    conv_rhs => rw [←List.zipIdx_map_fst n cells,List.map_map]
    rfl
  rw [slice,hzip,List.map_take,hkept,List.map_drop]

/-- The screen after some calls and a tick that repaints, neither paused nor frozen, in a bandwidth
mode and without help. -/
structure Display (q : (ℕ→ℕ→ℤ)→List ℕ→List ℕ) (start : Timeval) (es : List ClockEvent)
    (a : TickArgs) (p : Print) (passes : AddrPair→Bool) : Prop where
  /-- The tick repaints. -/
  repaints : Repaints a (clockRun (wrapped q) start es)
  /-- The display is not paused. -/
  unpaused : a.env.options.paused=false
  /-- The order is not frozen. -/
  unfrozen : a.env.options.freezeorder=false
  /-- The lines are sorted by rates. -/
  byRates : ByRates a.env.options
  /-- Help is off. -/
  help : p.showhelp=false
  /-- The list in memory replaces an empty one. -/
  list : ∃ list,Represents list [] ∧ p.screenList=
    dereferenced (clockRun (wrapped q) start (es++[.tick a])).lineMem
      (screenListOf q a.env.options list (clockRun (wrapped q) start (es++[.tick a])).toUi)
  /-- Whether the screen filter keeps a line depends on its addresses only. -/
  filter : ∀ node line,(p.screenFilterMatch (p.sprintHosts node line).1 ||
    p.screenFilterMatch (p.sprintHosts node line).2)=passes line.ap

/-- After a tick that repaints a display that is neither paused nor frozen and is sorted by rates, the
rows on the screen are, behind the offset and as far as they fit, those pairs of hosts that have
exchanged a packet in the last forty slots and pass the filter, the busiest first: in order of their
bytes in the columns of the sort mode, if no two pairs agree in them. -/
theorem busiest_rows {q : (ℕ→ℕ→ℤ)→List ℕ→List ℕ} (hq : Qsorts q) {start : Timeval}
    {es : List ClockEvent} {a : TickArgs} {p : Print} {passes : AddrPair→Bool}
    (h : Display q start es a p passes)
    (hd : ∀ k k',Active a.env.options (slotLog start (es++[.tick a])) k→
      Active a.env.options (slotLog start (es++[.tick a])) k'→k≠k'→
      traffic a.env.options (slotLog start (es++[.tick a])) k≠
        traffic a.env.options (slotLog start (es++[.tick a])) k') (y : ℤ) :
    ∃ order : List AddrPair,
      (∀ k,k∈order ↔ Active a.env.options (slotLog start (es++[.tick a])) k) ∧
      (order.Pairwise fun k k' => traffic a.env.options (slotLog start (es++[.tick a])) k'<
        traffic a.env.options (slotLog start (es++[.tick a])) k) ∧
      (uiPrint p y).map (fun row => row.screenLine.ap)=
        ((order.drop p.screenOffset).filter passes).take (rowsFit p y) := by
  obtain ⟨env,ho,-,hu⟩ := tick_eq (wrapped q) a (clockRun (wrapped q) start es)
  have hb := (logged_run (wrapped q) start es).beforeDisplay a
  obtain ⟨hlog,hrun⟩ := run_tick (wrapped q) start es a
  have hlist := h.list
  rw [if_pos h.repaints] at hu
  rw [hrun,hu] at hlist
  rw [←hlog] at hb
  rw [←ho] at hd hlist ⊢
  have hp : env.options.paused=false := ho ▸ h.unpaused
  have hf : env.options.freezeorder=false := ho ▸ h.unfrozen
  have hby : ByRates env.options := ho ▸ h.byRates
  generalize slotLog start (es++[.tick a])=log at hb hd ⊢
  generalize beforeDisplay a.now (clockRun (wrapped q) start es)=s at hb hlist
  have hl := analyseData_listed (wrapped q) env a.hostName hb.wf hp hf hby
  have hr : Rates env.options log (historyLengthOf s.toUi)
      (analyseData (wrapped q) env a.hostName s.toUi) :=
    fun e he j => (analyseData_rates (wrapped q) a.hostName hb hp j).2 e he
  have hrows := analyseData_present (wrapped q) env a.hostName hb.wf hp
  generalize analyseData (wrapped q) env a.hostName s.toUi=u' at hl hr hrows hlist
  have hactive := hl.active_iff hb.follows hrows
  obtain ⟨hperm,hpair⟩ := hl.busiest_first hq hby (historyLengthOf_pos hb.wf) hr
    fun k hk k' hk' => hd k k' ((hactive k).mp hk) ((hactive k').mp hk')
  obtain ⟨list,hempty,hprint⟩ := hlist
  obtain ⟨cells,hcells,hsnd⟩ := hl.represents hq hempty
  rw [←hprint] at hcells
  have hkeys : cells.map (fun c => c.2.ap)=listedKeys u' := by
    have hmap := congrArg (List.map HostPairLine.ap) hsnd
    rw [List.map_map,List.map_map] at hmap
    exact hmap
  refine ⟨listedKeys u',fun k => (hperm.mem_iff).trans (hactive k),hpair,?_⟩
  rw [uiPrint_eq hcells h.help y,slice_keys h.filter,hkeys]

/-- A datagram without data to a host of the local net. -/
def datagramTo (host : UInt8) : Packet := ip4Packet ipprotoUdp ![10,0,0,1] ![10,0,0,host]

/-- What the datagram to a host is counted for. -/
def countedTo (host : UInt8) : Accounted :=
  (account bareEnv (datagramTo host) 1).getD ⟨AddrPair.zero,false,false,0⟩

/-- The pair of hosts that it is shown for. -/
def pairWith (host : UInt8) : AddrPair := aggregate bareEnv.options (countedTo host).key

/-- A datagram to one host between two to another. -/
def threeDatagrams : List ClockEvent := [9,8,9].map fun host => .packet bareEnv (datagramTo host) 1

/-- The screen after them and a tick half a second later. -/
noncomputable def threePrint : Print where
  screenList :=
    let u := (clockRun (wrapped (sortOr id)) ⟨0,0⟩
      (threeDatagrams++[.tick (bareTick 0 500000)])).toUi
    dereferenced u.lineMem (screenListOf (sortOr id) bareEnv.options sortedListInitialise u)
  lines := 24
  showhelp := false
  screenOffset := 0
  linedisplay := .twoLine
  sprintHosts _ _ := ([],[])
  screenFilterMatch _ := true

/-- The slot that is open after them. -/
def threeLog : SlotLog := ⟨⟨⟨0,0⟩,[countedTo 9,countedTo 8,countedTo 9]⟩,[]⟩

/-- A datagram that is counted goes to the open slot of the log. -/
theorem step_datagram (log : SlotLog) {host : UInt8}
    (h : (account bareEnv (datagramTo host) 1).isSome=true) :
    log.step (.packet bareEnv (datagramTo host) 1)=
      ⟨⟨log.current.opened,log.current.packets++[countedTo host]⟩,log.closed⟩ := by
  obtain ⟨a,ha⟩ := Option.isSome_iff_exists.mp h
  rw [countedTo,ha,Option.getD_some]
  unfold SlotLog.step
  dsimp only
  rw [ha]

/-- The datagrams and the tick are logged in one slot, which the tick does not close. -/
theorem threeDatagrams_log :
    slotLog ⟨0,0⟩ (threeDatagrams++[.tick (bareTick 0 500000)])=threeLog := by
  have hearly : ¬timevalDiff (bareTick 0 500000).now ⟨0,0⟩≥resolution := by
    norm_num [timevalDiff,bareTick,resolution]
  have hnine : (account bareEnv (datagramTo 9) 1).isSome=true := by decide
  have height : (account bareEnv (datagramTo 8) 1).isSome=true := by decide
  unfold slotLog threeDatagrams
  rw [List.map_cons,List.map_cons,List.map_cons,List.map_nil,List.cons_append,List.cons_append,
    List.cons_append,List.nil_append,List.foldl_cons,List.foldl_cons,List.foldl_cons,
    List.foldl_cons,List.foldl_nil,step_datagram _ hnine,step_datagram _ height,
    step_datagram _ hnine]
  exact if_neg hearly

/-- The active pairs of the log are those of the two hosts that sent datagrams. -/
theorem threeLog_active (k : AddrPair) :
    Active bareEnv.options threeLog k ↔ k=pairWith 9 ∨ k=pairWith 8 := by
  constructor
  · rintro ⟨i,-,a,ha,rfl⟩
    cases i with
    | zero =>
      rcases List.mem_cons.mp ha with rfl|ha
      · exact .inl rfl
      rcases List.mem_cons.mp ha with rfl|ha
      · exact .inr rfl
      · exact .inl (by rw [List.mem_singleton.mp ha]; rfl)
    | succ i => exact absurd ha List.not_mem_nil
  · rintro (rfl|rfl)
    · exact ⟨0,by decide,_,List.mem_cons_self,rfl⟩
    · exact ⟨0,by decide,_,List.mem_cons_of_mem _ List.mem_cons_self,rfl⟩

/-- The pairs of the two hosts differ in an address. -/
theorem pairWith_ne : pairWith 9≠ pairWith 8 := by
  intro h
  have hbyte : (pairWith 9).dst6 ⟨3,by decide⟩=(pairWith 8).dst6 ⟨3,by decide⟩ := by rw [h]
  exact absurd hbyte (by decide)

/-- The bytes of the two pairs in a column for both directions. -/
theorem threeLog_columns (j : Division) :
    columnBytes bareEnv.options threeLog (pairWith 9) (.both,j)=40 ∧
      columnBytes bareEnv.options threeLog (pairWith 8) (.both,j)=20 := by
  have hwindow : (threeLog.window j).flatMap LoggedSlot.packets=
      [countedTo 9,countedTo 8,countedTo 9] := by
    rw [SlotLog.window,threeLog,List.take_nil,List.flatMap_singleton]
  have hkey (host : UInt8) : aggregate bareEnv.options (countedTo host).key=pairWith host := rfl
  have hsent : sentLen (countedTo 9)=20 ∧ sentLen (countedTo 8)=20 := by decide
  have hrecv : recvLen (countedTo 9)=0 ∧ recvLen (countedTo 8)=0 := by decide
  simp [columnBytes,SlotLog.bytes,hwindow,hkey,pairWith_ne,pairWith_ne.symm,hsent,hrecv]

/-- The host with two datagrams has more traffic. -/
theorem threeLog_traffic : traffic bareEnv.options threeLog (pairWith 8)<
    traffic bareEnv.options threeLog (pairWith 9) := by
  have hcolumns : sortColumns bareEnv.options=[(.both,1),(.both,2)] := rfl
  simp only [traffic,hcolumns,List.map_cons,List.map_nil,(threeLog_columns _).1,
    (threeLog_columns _).2]
  decide

/-- The host with two datagrams has the first row, and the other one the second. -/
theorem busiest_rows_two :
    (uiPrint threePrint 2).map (fun row => row.screenLine.ap)=[pairWith 9,pairWith 8] := by
  have hq : Qsorts (@sortOr ℕ id) := sortOr_qsorts fun _ => .refl _
  have hlast : (clockRun (wrapped (sortOr id)) ⟨0,0⟩ threeDatagrams).lastDisplay=⟨0,0⟩ := rfl
  have hdue : Repaints (bareTick 0 500000) (clockRun (wrapped (sortOr id)) ⟨0,0⟩ threeDatagrams) := by
    right
    rw [hlast]
    norm_num [timevalDiff,bareTick,displayResolution]
  have hdisplay : Display (sortOr id) ⟨0,0⟩ threeDatagrams (bareTick 0 500000) threePrint
      fun _ => true :=
    ⟨hdue,rfl,rfl,⟨by decide,by decide⟩,rfl,⟨_,represents_initialise,rfl⟩,fun _ _ => rfl⟩
  have hdiffer (k k' : AddrPair) (h : k=pairWith 9 ∨ k=pairWith 8)
      (h' : k'=pairWith 9 ∨ k'=pairWith 8) (hne : k≠k') :
      traffic bareEnv.options threeLog k≠ traffic bareEnv.options threeLog k' := by
    rcases h with rfl|rfl
    · rcases h' with rfl|rfl
      · exact absurd rfl hne
      · exact threeLog_traffic.ne'
    · rcases h' with rfl|rfl
      · exact threeLog_traffic.ne
      · exact absurd rfl hne
  obtain ⟨order,hmem,hpair,hrows⟩ := busiest_rows hq hdisplay (fun k k' h h' hne => by
    rw [threeDatagrams_log] at h h' ⊢
    exact hdiffer k k' ((threeLog_active k).mp h) ((threeLog_active k').mp h') hne) 2
  rw [threeDatagrams_log] at hmem hpair
  have hperm : order.Perm [pairWith 9,pairWith 8] := by
    have hnodup : order.Nodup := hpair.imp fun hlt heq => (heq ▸ hlt).ne rfl
    refine (List.perm_ext_iff_of_nodup hnodup ?_).mpr fun k => ?_
    · exact List.nodup_cons.mpr ⟨fun h => threeLog_traffic.ne'
        (congrArg _ (List.mem_singleton.mp h)),List.nodup_singleton _⟩
    · exact ((hmem k).trans (threeLog_active k)).trans List.mem_pair.symm
  have horder : order=[pairWith 9,pairWith 8] := by
    refine List.Perm.eq_of_pairwise (fun a b _ _ hab hba => absurd hab hba.not_gt) hpair ?_ hperm
    exact List.pairwise_pair.mpr threeLog_traffic
  rw [hrows,horder]
  rfl

end IftopColor.BusiestRows
