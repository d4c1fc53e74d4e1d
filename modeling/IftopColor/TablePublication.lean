import IftopColor.GuardedRun
import IftopColor.ProcInfo

/-!
# Publishing a new socket table

The tick thread builds a socket table, exchanges it with the live one and frees
the old one. A lookup on the capture thread loads the live pointer and scans the
table behind it. The exchange is atomic, but nothing tells the tick thread that
a lookup still holds the pointer it is about to free.

As long as no table is freed between the load and the scan of a lookup that
holds it, every scan is of a table that is not freed and answers for a table
that was live during the lookup. Any other free leaves a lookup with a pointer
to freed memory.
-/

namespace IftopColor.TablePublication

open AddrHash ProcInfo GuardedRun

/-- What a lookup asks for. -/
structure Query where
  /-- Family of the endpoint. -/
  af : AddressFamily
  /-- Address of the endpoint. -/
  addr : In6Addr
  /-- Port of the endpoint. -/
  port : UInt16
  /-- Transport protocol. -/
  protocol : UInt16

/-- A call of `procinfo_lookup` between its load and its scan. -/
structure Lookup where
  /-- The pointer it loaded; a null pointer is `none`. -/
  table : Option ℕ
  /-- The arguments of the lookup. -/
  query : Query
  /-- Contents of the tables that have been live since the load. -/
  liveSince : List (List SockEntry)

/-- The tables with the two threads that use them. -/
structure Tables where
  /-- `live_table`. -/
  live : Option ℕ
  /-- Memory behind the pointers. -/
  contents : ℕ→List SockEntry
  /-- Tables from here on were never created. -/
  brk : ℕ
  /-- Tables that were freed. -/
  released : List ℕ
  /-- The old table of a `table_publish` between its exchange and its free. -/
  publishing : Option (Option ℕ)
  /-- The lookup in progress. -/
  reader : Option Lookup

/-- No table is published at the start. -/
def initTables : Tables := ⟨none,fun _ => [],0,[],none,none⟩

/-- What a pointer leads to; there is nothing behind a null pointer. -/
def Tables.behind (s : Tables) (table : Option ℕ) : List SockEntry :=
  match table with
  | none => []
  | some t => s.contents t

/-- What the threads can do next. What freed memory holds is arbitrary. -/
inductive Action where
  | exchange (staging : List SockEntry)
  | release (junk : List SockEntry)
  | load (query : Query)
  | scan

/-- The effect of an action, or `none` when it is not enabled. -/
def next (s : Tables) : Action→Option Tables
  | .exchange staging =>
    match s.publishing with
    | none => some {s with
        live := some s.brk
        contents := Function.update s.contents s.brk staging
        brk := s.brk+1
        publishing := some s.live
        reader := s.reader.map fun l => {l with liveSince := l.liveSince++[staging]}}
    | some _ => none
  | .release junk =>
    match s.publishing with
    | none => none
    | some none => some {s with publishing := none}
    | some (some old) => some {s with
        contents := Function.update s.contents old junk
        released := old::s.released
        publishing := none}
  | .load query =>
    match s.reader with
    | none => some {s with reader := some ⟨s.live,query,[s.behind s.live]⟩}
    | some _ => none
  | .scan =>
    match s.reader with
    | none => none
    | some _ => some {s with reader := none}

/-- The answer of a table to a query. -/
def answer (table : List SockEntry) (q : Query) : Option ProcEntry :=
  tableFind table q.af q.addr q.port q.protocol

/-- What the lookup in progress would read is not freed, and its answer is that
of a table that has been live since its load. -/
def Sound (s : Tables) : Prop :=
  ∀ l,s.reader=some l→(∀ t,l.table=some t→t∉s.released) ∧
    ∃ table∈l.liveSince,answer (s.behind l.table) l.query=answer table l.query

/-- A free of the table that the lookup in progress holds. -/
def Harmful (s : Tables) : Action→Prop
  | .release _ => ∃ l t,s.reader=some l ∧ l.table=some t ∧ s.publishing=some (some t)
  | _ => False

/-- What holds as long as no table was freed under a lookup. -/
structure Inv (s : Tables) : Prop where
  /-- The live table was created and not freed. -/
  live : ∀ t,s.live=some t→t<s.brk ∧ t∉s.released
  /-- The table to be freed was created, and it is no longer live. -/
  old : ∀ t,s.publishing=some (some t)→t<s.brk ∧ s.live≠some t
  /-- Freed tables were created. -/
  released : ∀ t∈s.released,t<s.brk
  /-- The table of a lookup was created and not freed. -/
  held : ∀ l,s.reader=some l→∀ t,l.table=some t→t<s.brk ∧ t∉s.released
  /-- The contents behind the table of a lookup have been live since its load. -/
  seen : ∀ l,s.reader=some l→s.behind l.table∈l.liveSince

variable {s s' : Tables} {a : Action}

/-- At the start no table is in use, so the invariant holds. -/
theorem inv_init : Inv initTables := by
  constructor <;> simp [initTables]

/-- Writing to one table does not change what a pointer to another leads to. -/
theorem behind_of_update {table : Option ℕ} {t : ℕ} {content : List SockEntry}
    (hc : s'.contents=Function.update s.contents t content) (ht : ∀ k,table=some k→k≠t) :
    s'.behind table=s.behind table := by
  cases table with
  | none => rfl
  | some k => simp only [Tables.behind,hc,Function.update_of_ne (ht k rfl)]

/-- The exchange publishes a table that nobody holds. -/
theorem inv_exchange {staging : List SockEntry} (h : Inv s) (hn : next s (.exchange staging)=some s') :
    Inv s' := by
  cases hp : s.publishing with
  | some old => simp [next,hp] at hn
  | none =>
    simp only [next,hp,Option.some.injEq] at hn
    subst hn
    have hnew : s.brk∉s.released := fun hm => absurd (h.released _ hm) (lt_irrefl _)
    refine ⟨?_,?_,?_,?_,?_⟩
    · rintro t ⟨⟩
      exact ⟨Nat.lt_succ_self _,hnew⟩
    · intro t ht
      have ht := (h.live t (Option.some.inj ht)).1
      exact ⟨ht.trans (Nat.lt_succ_self _),fun he => ht.ne (Option.some.inj he).symm⟩
    · exact fun t ht => (h.released t ht).trans (Nat.lt_succ_self _)
    · intro l hl t ht
      obtain ⟨l₀,hl₀,rfl⟩ := Option.map_eq_some_iff.mp hl
      obtain ⟨h1,h2⟩ := h.held l₀ hl₀ t ht
      exact ⟨h1.trans (Nat.lt_succ_self _),h2⟩
    · intro l hl
      obtain ⟨l₀,hl₀,rfl⟩ := Option.map_eq_some_iff.mp hl
      refine List.mem_append_left _ ?_
      rw [behind_of_update rfl fun t ht => (h.held l₀ hl₀ t ht).1.ne]
      exact h.seen l₀ hl₀

/-- The free of a table that no lookup holds. -/
theorem inv_release {junk : List SockEntry} (h : Inv s) (hg : ¬Harmful s (.release junk))
    (hn : next s (.release junk)=some s') : Inv s' := by
  cases hp : s.publishing with
  | none => simp [next,hp] at hn
  | some old =>
    cases old with
    | none =>
      simp only [next,hp,Option.some.injEq] at hn
      subst hn
      exact ⟨h.live,by simp,h.released,h.held,h.seen⟩
    | some old =>
      simp only [next,hp,Option.some.injEq] at hn
      subst hn
      obtain ⟨hold,hlive⟩ := h.old old hp
      have hfree : ∀ l,s.reader=some l→∀ t,l.table=some t→t≠old := by
        rintro l hl t ht rfl
        exact hg ⟨l,t,hl,ht,hp⟩
      refine ⟨?_,by simp,?_,?_,?_⟩
      · intro t ht
        obtain ⟨h1,h2⟩ := h.live t ht
        exact ⟨h1,List.not_mem_cons_of_ne_of_not_mem (fun he => hlive (he ▸ ht)) h2⟩
      · exact List.forall_mem_cons.mpr ⟨hold,h.released⟩
      · intro l hl t ht
        obtain ⟨h1,h2⟩ := h.held l hl t ht
        exact ⟨h1,List.not_mem_cons_of_ne_of_not_mem (hfree l hl t ht) h2⟩
      · intro l hl
        rw [behind_of_update rfl (hfree l hl)]
        exact h.seen l hl

/-- A lookup starts with the live table. -/
theorem inv_load {query : Query} (h : Inv s) (hn : next s (.load query)=some s') : Inv s' := by
  cases hr : s.reader with
  | some l => simp [next,hr] at hn
  | none =>
    simp only [next,hr,Option.some.injEq] at hn
    subst hn
    refine ⟨h.live,h.old,h.released,?_,?_⟩
    · rintro l ⟨⟩ t ht
      exact h.live t ht
    · rintro l ⟨⟩
      exact List.mem_singleton.mpr rfl

/-- The end of a lookup keeps the invariant. -/
theorem inv_scan (h : Inv s) (hn : next s .scan=some s') : Inv s' := by
  cases hr : s.reader with
  | none => simp [next,hr] at hn
  | some l =>
    simp only [next,hr,Option.some.injEq] at hn
    subst hn
    exact ⟨h.live,h.old,h.released,by simp,by simp⟩

/-- Every action keeps the invariant, unless it frees a table under a lookup. -/
theorem inv_step (h : Inv s) (hg : ¬Harmful s a) (hn : next s a=some s') : Inv s' := by
  cases a with
  | exchange staging => exact inv_exchange h hn
  | release junk => exact inv_release h hg hn
  | load query => exact inv_load h hn
  | scan => exact inv_scan h hn

/-- The table of the lookup in progress is one that has been live. -/
theorem Inv.sound (h : Inv s) : Sound s := fun l hl =>
  ⟨fun t ht => (h.held l hl t ht).2,_,h.seen l hl,rfl⟩

/-- A table freed under a lookup is about to be scanned. -/
theorem unsound_of_harmful (ha : Harmful s a) (hn : next s a=some s') : ¬Sound s' := by
  cases a with
  | release junk =>
    obtain ⟨l,t,hl,ht,hp⟩ := ha
    simp only [next,hp,Option.some.injEq] at hn
    subst hn
    exact fun hsound => (hsound l hl).1 t ht (List.mem_cons_self ..)
  | _ => exact ha.elim

/-- As long as no table is freed under a lookup, no lookup scans a freed table
and each answers for a table that was live during it; every free under a lookup
leaves that lookup with a freed table. -/
theorem sound_iff_unshared (s : Tables) :
    (Run next (fun s a => ¬Harmful s a) initTables s→Sound s) ∧
      ∀ a s',Reaches next initTables s→Harmful s a→next s a=some s'→¬Sound s' := by
  refine ⟨fun hs => ?_,fun a s' _ ha hn => unsound_of_harmful ha hn⟩
  exact (hs.invariant inv_init fun _ _ _ h hg hn => inv_step h hg hn).sound

/-- A lookup loads the first table, which is then replaced and freed. -/
def replacedRun : List Action :=
  [.exchange [],.release [],.load ⟨.inet,fun _ => 0,80,6⟩,.exchange [],.release []]

/-- The lookup is left with a freed table. -/
theorem replaced_unsound : ∃ s,replacedRun.foldlM next initTables=some s ∧
    Reaches next initTables s ∧ ¬Sound s := by
  have hrun : ∃ s,replacedRun.foldlM next initTables=some s ∧ ¬Sound s := by
    refine ⟨_,rfl,fun hsound => ?_⟩
    exact (hsound _ rfl).1 0 rfl (by decide)
  obtain ⟨s,hs,hns⟩ := hrun
  exact ⟨s,hs,Reaches.of_foldlM hs,hns⟩

end IftopColor.TablePublication
