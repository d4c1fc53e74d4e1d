import IftopColor.Options
import Mathlib.Data.List.Forall2

/-!
# The automatic scale of the bar chart

The scale is a table of seven maxima and an index into it. A rate above the
current maximum asks for a bigger scale at the end of the frame; the first such
rate also searches the table for a scale that fits and moves the index past it.
Nothing bounds the index. A read outside the table is a failure of the model,
and the sequences of frames that never fail are characterised exactly.
-/

namespace IftopColor.BarScale

open Options

/-- Entry of `scale`. -/
structure Scale where
  /-- Largest rate of the scale. -/
  max : ℤ
  /-- Interval of its marks. -/
  interval : ℤ

/-- `scale`. -/
def scale : List Scale :=
  [⟨64000,10⟩,⟨128000,10⟩,⟨256000,10⟩,⟨1000000,10⟩,⟨10000000,10⟩,⟨100000000,100⟩,⟨1000000000,100⟩]

/-- `scale[i].max`; `none` when the index is outside the table. -/
def scaleMax (i : ℕ) : Option ℤ := scale[i]?.map Scale.max

/-- The static variables of the bar chart. -/
structure BarState where
  /-- `rateidx`. -/
  rateidx : ℕ
  /-- `wantbiggerrate`. -/
  wantbiggerrate : Bool
  /-- `rateidx_init`. -/
  rateidxInit : ℕ
  deriving DecidableEq

/-- State at program start. -/
def barInit : BarState := ⟨0,false,0⟩

/-- `get_max_bandwidth`. -/
def getMaxBandwidth (o : OptionsT) (s : BarState) : Option ℤ :=
  if o.maxBandwidth>0 then some o.maxBandwidth else scaleMax s.rateidx

/-- `while (rate > scale[rateidx_init++].max) {}` over the rest of the table
from index `i`: the final index, or `none` when the search leaves the table. -/
def searchScale (rate : ℤ) : List Scale→ℕ→Option ℕ
  | [],_ => none
  | entry::rest,i => if rate>entry.max then searchScale rate rest (i+1) else some (i+1)

/-- `get_bar_length_eighths`. The length itself, from the log-scale option, the
rate and the maximum, is floating point and a parameter. -/
def getBarLengthEighths (barLength : Bool→ℤ→ℤ→ℤ) (o : OptionsT) (rate : ℤ) (s : BarState) :
    Option (ℤ×BarState) :=
  if rate≤0 then some (0,s)
  else do
    let current ← scaleMax s.rateidx
    let s ←
      if rate>current then
        let s := {s with wantbiggerrate := true}
        if s.rateidxInit=0 then do
          let i ← searchScale rate (scale.drop s.rateidxInit) s.rateidxInit
          some {s with rateidxInit := i,rateidx := i}
        else some s
      else some s
    let max ← getMaxBandwidth o s
    some (barLength o.logScale rate max,s)

/-- The end of `ui_print`. -/
def endFrame (o : OptionsT) (s : BarState) : BarState :=
  if s.wantbiggerrate ∧ o.maxBandwidth=0 then
    {s with rateidx := s.rateidx+1,wantbiggerrate := false}
  else s

section Frames

variable (barLength : Bool→ℤ→ℤ→ℤ) (o : OptionsT)

/-- The bar of one rate. -/
def drawBar (s : BarState) (rate : ℤ) : Option BarState :=
  (getBarLengthEighths barLength o rate s).map Prod.snd

/-- The bars of a list of rates. -/
def drawBars (s : BarState) (rates : List ℤ) : Option BarState := rates.foldlM (drawBar barLength o) s

/-- A frame: the bars of its rates, then the end of `ui_print`. -/
def drawFrame (s : BarState) (rates : List ℤ) : Option BarState :=
  (drawBars barLength o s rates).map (endFrame o)

/-- A sequence of frames. -/
def drawFrames (s : BarState) (frames : List (List ℤ)) : Option BarState :=
  frames.foldlM (drawFrame barLength o) s

end Frames

/-- A frame has a rate above a threshold. -/
def Above (threshold : ℤ) (rates : List ℤ) : Prop := ∃ r∈rates,threshold < r

instance (threshold : ℤ) (rates : List ℤ) : Decidable (Above threshold rates) :=
  inferInstanceAs (Decidable (∃ r∈rates,threshold < r))

/-- One rate decides, or the others do. -/
theorem above_cons {threshold r : ℤ} {rates : List ℤ} :
    Above threshold (r::rates) ↔ threshold < r ∨ Above threshold rates := by
  simp [Above]

/-- Among the frames there is, in order, one above each of the thresholds. -/
abbrev Climbs (thresholds : List ℤ) (frames : List (List ℤ)) : Prop :=
  List.SublistForall₂ Above thresholds frames

section Climbs

variable {t : ℤ} {ts : List ℤ} {frame : List ℤ} {frames : List (List ℤ)}

/-- Without its first threshold the climb is still there. -/
theorem climbs_tail (h : Climbs (t::ts) frames) : Climbs ts frames := by
  obtain ⟨gs,hf,hs⟩ := List.sublistForall₂_iff.mp h
  cases hf with
  | cons _ hf => exact List.sublistForall₂_iff.mpr ⟨_,hf,(List.sublist_cons_self ..).trans hs⟩

/-- A frame above the first threshold is taken as its first step. -/
theorem climbs_cons_of_above (h : Above t frame) :
    Climbs (t::ts) (frame::frames) ↔ Climbs ts frames := by
  constructor
  · intro hc
    cases hc with
    | cons _ hc => exact hc
    | cons_right hc => exact climbs_tail hc
  · exact .cons h

/-- A frame that is not above the first threshold can be left out of a climb. -/
theorem climbs_cons_of_not (h : ¬Above t frame) :
    Climbs (t::ts) (frame::frames) ↔ Climbs (t::ts) frames := by
  constructor
  · intro hc
    cases hc with
    | cons ha _ => exact absurd ha h
    | cons_right hc => exact hc
  · exact .cons_right

end Climbs

/-- A read of the table is the head of its rest. -/
theorem scaleMax_eq (i : ℕ) : scaleMax i=((scale.drop i).map Scale.max).head? := by
  rw [scaleMax,List.head?_map,List.head?_drop]

/-- Where the search ends: just after the first scale that fits. -/
theorem searchScale_spec (rate : ℤ) (rest : List Scale) (i : ℕ) (h : scale.drop i=rest) :
    match rest.dropWhile fun entry => entry.max < rate with
    | [] => searchScale rate rest i=none
    | _::above => ∃ j,searchScale rate rest i=some j ∧ 0<j ∧ scale.drop j=above := by
  induction rest generalizing i with
  | nil => simp [searchScale]
  | cons entry rest ih =>
    have hd : scale.drop (i+1)=rest := by rw [←List.drop_drop,h]; rfl
    by_cases hr : entry.max < rate
    · have hi := ih (i+1) hd
      rw [List.dropWhile_cons_of_pos (by simpa using hr)]
      simpa [searchScale,hr] using hi
    · rw [List.dropWhile_cons_of_neg (by simpa using hr)]
      exact ⟨i+1,by simp [searchScale,hr],by omega,hd⟩

section Found

variable (barLength : Bool→ℤ→ℤ→ℤ) {o : OptionsT} {s : BarState}

/-- Thresholds from a scale on: a rate above one asks for the next, and past
the table every bar fails. -/
def thresholds (rest : List Scale) : List ℤ := rest.map Scale.max++[0]

/-- A bar on a scale of the table, once the search has been done. -/
theorem drawBar_found (ho : o.maxBandwidth=0) (hi : s.rateidxInit≠0) {m : ℤ}
    (hm : scaleMax s.rateidx=some m) (hpos : 0 < m) (rate : ℤ) :
    drawBar barLength o s rate=
      some {s with wantbiggerrate := s.wantbiggerrate || decide (m < rate)} := by
  by_cases h0 : rate≤0
  · have hr : ¬m < rate := by omega
    simp [drawBar,getBarLengthEighths,h0,hr]
  · by_cases hr : m < rate
    · simp [drawBar,getBarLengthEighths,getMaxBandwidth,ho,h0,hm,hi,hr]
    · simp [drawBar,getBarLengthEighths,getMaxBandwidth,ho,h0,hm,hr]

/-- The bars of a frame on a scale of the table. -/
theorem drawBars_found (ho : o.maxBandwidth=0) (hi : s.rateidxInit≠0) {m : ℤ}
    (hm : scaleMax s.rateidx=some m) (hpos : 0 < m) (rates : List ℤ) :
    drawBars barLength o s rates=
      some {s with wantbiggerrate := s.wantbiggerrate || decide (Above m rates)} := by
  induction rates generalizing s with
  | nil => simp [drawBars,Above]
  | cons rate rates ih =>
    have hrest := ih (s:={s with wantbiggerrate := s.wantbiggerrate || decide (m < rate)}) hi hm
    rw [drawBars,List.foldlM_cons,drawBar_found barLength ho hi hm hpos]
    refine hrest.trans ?_
    simp only [above_cons,Bool.decide_or,Bool.or_assoc]

/-- Past the table a frame fails unless it has no positive rate. -/
theorem drawBars_past (hm : scaleMax s.rateidx=none) (rates : List ℤ) :
    drawBars barLength o s rates=if Above 0 rates then none else some s := by
  induction rates with
  | nil => simp [drawBars,Above]
  | cons rate rates ih =>
    rw [drawBars,List.foldlM_cons]
    by_cases h0 : rate≤0
    · have hr : ¬0 < rate := by omega
      have hd : drawBar barLength o s rate=some s := by simp [drawBar,getBarLengthEighths,h0]
      rw [hd]
      refine ih.trans ?_
      simp only [above_cons,hr,false_or]
    · have hr : 0 < rate := by omega
      have hd : drawBar barLength o s rate=none := by simp [drawBar,getBarLengthEighths,h0,hm]
      rw [hd,if_pos (above_cons.mpr (.inl hr))]
      rfl

/-- After the search, frames fail exactly when they climb past the table. -/
theorem drawFrames_found (ho : o.maxBandwidth=0) (hi : s.rateidxInit≠0)
    (hw : s.wantbiggerrate=false) (frames : List (List ℤ)) :
    drawFrames barLength o s frames≠none ↔ ¬Climbs (thresholds (scale.drop s.rateidx)) frames := by
  have hmax : ∀ entry∈scale,0<entry.max := by decide
  induction frames generalizing s with
  | nil =>
    have hn : ¬Climbs (thresholds (scale.drop s.rateidx)) [] := by
      intro hc
      cases hd : thresholds (scale.drop s.rateidx) with
      | nil => simp [thresholds] at hd
      | cons t ts =>
        rw [hd] at hc
        cases hc
    simp [drawFrames,hn]
  | cons frame frames ih =>
    rw [drawFrames,List.foldlM_cons,drawFrame]
    cases hd : scale.drop s.rateidx with
    | nil =>
      have hm : scaleMax s.rateidx=none := by rw [scaleMax_eq,hd]; rfl
      rw [drawBars_past barLength hm]
      by_cases ha : Above 0 frame
      · have hc : Climbs (thresholds []) (frame::frames) := .cons ha .nil
        simp [ha,hc]
      · have he : endFrame o s=s := by simp [endFrame,hw]
        rw [if_neg ha,thresholds,List.map_nil,List.nil_append,climbs_cons_of_not ha]
        have hrest := ih hi hw
        rw [hd] at hrest
        simp only [Option.map_some,he]
        exact hrest
    | cons entry rest =>
      have hm : scaleMax s.rateidx=some entry.max := by rw [scaleMax_eq,hd]; rfl
      have hpos : 0<entry.max := hmax entry (List.mem_of_mem_drop (by rw [hd]; simp))
      rw [drawBars_found barLength ho hi hm hpos,hw,Bool.false_or]
      by_cases ha : Above entry.max frame
      · have hd' : scale.drop (s.rateidx+1)=rest := by rw [←List.drop_drop,hd]; rfl
        have hrest := ih (s:={s with rateidx := s.rateidx+1,wantbiggerrate := false}) hi rfl
        rw [hd'] at hrest
        rw [thresholds,List.map_cons,List.cons_append,climbs_cons_of_above ha]
        simp only [Option.map_some,ha,decide_true,endFrame,ho,and_self,if_true]
        exact hrest
      · have hrest := ih (s:={s with wantbiggerrate := false}) hi rfl
        rw [hd] at hrest
        rw [thresholds,List.map_cons,List.cons_append,climbs_cons_of_not ha]
        simp only [Option.map_some,ha,decide_false,endFrame,Bool.false_eq_true,false_and,if_false]
        exact hrest

end Found

section First

variable (barLength : Bool→ℤ→ℤ→ℤ) {o : OptionsT}

/-- All rates fit the smallest scale. -/
def Quiet (rates : List ℤ) : Prop := ∀ r∈rates,r≤64000

/-- Bars on the smallest scale change nothing. -/
theorem drawBars_quiet (ho : o.maxBandwidth=0) {rates : List ℤ} (h : Quiet rates) :
    drawBars barLength o barInit rates=some barInit := by
  induction rates with
  | nil => rfl
  | cons rate rates ih =>
    have hr : ¬64000 < rate := not_lt.mpr (h rate (List.mem_cons_self ..))
    have hm : scaleMax barInit.rateidx=some 64000 := by decide
    have hd : drawBar barLength o barInit rate=some barInit := by
      by_cases h0 : rate≤0
      · simp [drawBar,getBarLengthEighths,h0]
      · simp [drawBar,getBarLengthEighths,getMaxBandwidth,ho,h0,hm,hr]
    rw [drawBars,List.foldlM_cons,hd]
    exact ih fun x hx => h x (List.mem_cons_of_mem _ hx)

/-- Frames on the smallest scale change nothing. -/
theorem drawFrames_quiet (ho : o.maxBandwidth=0) {frames : List (List ℤ)}
    (h : ∀ f∈frames,Quiet f) : drawFrames barLength o barInit frames=some barInit := by
  induction frames with
  | nil => rfl
  | cons frame frames ih =>
    have hd : drawFrame barLength o barInit frame=some barInit := by
      rw [drawFrame,drawBars_quiet barLength ho (h frame (List.mem_cons_self ..))]
      rfl
    rw [drawFrames,List.foldlM_cons,hd]
    exact ih fun f hf => h f (List.mem_cons_of_mem _ hf)

/-- The scales that fit a rate, smallest first. -/
def fitting (rate : ℤ) : List Scale := scale.dropWhile fun entry => entry.max < rate

/-- There are two of them up to 100 Mbit/s. -/
theorem fitting_tail_iff (rate : ℤ) : (fitting rate).tail≠[] ↔ rate≤100000000 := by
  unfold fitting scale
  simp only [List.dropWhile_cons,decide_eq_true_eq]
  split_ifs <;> simp <;> omega

/-- The first rate above the smallest scale moves the index one past the first
scale that fits; the bar needs that entry, too. -/
theorem drawBar_first (ho : o.maxBandwidth=0) {rate : ℤ} (hr : 64000 < rate) :
    match (fitting rate).tail with
    | [] => drawBar barLength o barInit rate=none
    | entry::rest => ∃ j,drawBar barLength o barInit rate=some ⟨j,true,j⟩ ∧ 0<j ∧
        scale.drop j=entry::rest := by
  have h0 : ¬rate≤0 := by omega
  have hm : scaleMax 0=some 64000 := by decide
  have hs := searchScale_spec rate scale 0 rfl
  rw [←fitting] at hs
  cases hf : fitting rate with
  | nil =>
    simp only [hf] at hs
    simp [drawBar,getBarLengthEighths,barInit,h0,hm,hr,hs]
  | cons first above =>
    simp only [hf] at hs
    obtain ⟨j,hj,hpos,hd⟩ := hs
    have hmax := scaleMax_eq j
    rw [hd] at hmax
    cases above with
    | nil =>
      simp only [List.map_nil,List.head?_nil] at hmax
      simp [drawBar,getBarLengthEighths,getMaxBandwidth,barInit,ho,h0,hm,hr,hj,hmax]
    | cons entry rest =>
      simp only [List.map_cons,List.head?_cons] at hmax
      refine ⟨j,?_,hpos,hd⟩
      simp [drawBar,getBarLengthEighths,getMaxBandwidth,barInit,ho,h0,hm,hr,hj,hmax]

/-- Frames with a first rate above the smallest scale: they fail unless that
rate leaves a scale to spare and the later frames do not climb past the table. -/
theorem drawFrames_loud (ho : o.maxBandwidth=0) {quiet later : List (List ℤ)}
    {before after : List ℤ} {r : ℤ} (hq : ∀ f∈quiet,Quiet f) (hb : Quiet before) (hr : 64000 < r) :
    drawFrames barLength o barInit (quiet++(before++r::after)::later)≠none ↔
      r≤100000000 ∧ ¬Climbs (thresholds ((fitting r).drop 2)) later := by
  have hmax : ∀ entry∈scale,0<entry.max := by decide
  have hbars : drawBars barLength o barInit (before++r::after)=
      (drawBar barLength o barInit r).bind fun s => drawBars barLength o s after := by
    have h1 := drawBars_quiet barLength ho hb
    rw [drawBars] at h1
    rw [drawBars,List.foldlM_append,h1]
    rfl
  have hquiet := drawFrames_quiet barLength ho hq
  rw [drawFrames] at hquiet
  rw [drawFrames,List.foldlM_append,hquiet,←fitting_tail_iff]
  simp only [Option.bind_eq_bind,Option.bind_some,List.foldlM_cons,drawFrame,hbars]
  have hfirst := drawBar_first barLength ho hr
  cases hf : (fitting r).tail with
  | nil =>
    simp only [hf] at hfirst
    simp [hfirst]
  | cons entry rest =>
    simp only [hf] at hfirst
    obtain ⟨j,hj,hpos,hd⟩ := hfirst
    have hm : scaleMax j=some entry.max := by rw [scaleMax_eq,hd]; rfl
    have hentry : 0<entry.max := hmax entry (List.mem_of_mem_drop (by rw [hd]; simp))
    have hafter := drawBars_found barLength (s:=⟨j,true,j⟩) ho hpos.ne' hm hentry after
    have hd' : scale.drop (j+1)=(fitting r).drop 2 := by
      rw [←List.drop_drop,hd,←hf,←List.drop_one,List.drop_drop]
    have hlater := drawFrames_found barLength (s:=⟨j+1,false,j⟩) ho hpos.ne' rfl later
    rw [hd'] at hlater
    simp only [hj,Option.bind_some,hafter,Option.map_some,Bool.true_or,endFrame,ho,and_self,
      if_true]
    simpa [drawFrames] using hlater

end First

/-- A list that does not have a property throughout has a first item without it. -/
theorem exists_first {α : Type} {P : α→Prop} {l : List α} (h : ¬∀ x∈l,P x) :
    ∃ before x after,l=before++x::after ∧ (∀ y∈before,P y) ∧ ¬P x := by
  induction l with
  | nil => simp at h
  | cons a l ih =>
    by_cases ha : P a
    · obtain ⟨before,x,after,rfl,hb,hx⟩ := ih fun hl => h (List.forall_mem_cons.mpr ⟨ha,hl⟩)
      exact ⟨a::before,x,after,rfl,List.forall_mem_cons.mpr ⟨ha,hb⟩,hx⟩
    · exact ⟨[],a,l,rfl,by simp,ha⟩

/-- The table is never read out of range exactly when no rate exceeds 64 kbit/s,
or the first one that does is at most 100 Mbit/s and the later frames do not
have, in order, a rate above each scale from the third that fits it on and then
any positive rate. -/
theorem bar_scale_safe_iff (barLength : Bool→ℤ→ℤ→ℤ) (o : OptionsT) (ho : o.maxBandwidth=0)
    (frames : List (List ℤ)) :
    drawFrames barLength o barInit frames≠none ↔
      (∀ f∈frames,Quiet f) ∨
        ∃ quiet before r after later,frames=quiet++(before++r::after)::later ∧
          (∀ f∈quiet,Quiet f) ∧ Quiet before ∧ 64000 < r ∧ r≤100000000 ∧
          ¬Climbs (thresholds ((fitting r).drop 2)) later := by
  constructor
  · intro hsafe
    by_cases hall : ∀ f∈frames,Quiet f
    · exact .inl hall
    · obtain ⟨quiet,frame,later,rfl,hq,hf⟩ := exists_first hall
      obtain ⟨before,r,after,rfl,hb,hr⟩ := exists_first hf
      have hr : 64000 < r := not_le.mp hr
      obtain ⟨h1,h2⟩ := (drawFrames_loud barLength ho hq hb hr).mp hsafe
      exact .inr ⟨quiet,before,r,after,later,rfl,hq,hb,hr,h1,h2⟩
  · rintro (hq|⟨quiet,before,r,after,later,rfl,hq,hb,hr,h1,h2⟩)
    · simp [drawFrames_quiet barLength ho hq]
    · exact (drawFrames_loud barLength ho hq hb hr).mpr ⟨h1,h2⟩

/-- A first rate of 200 kbit/s behind quiet ones, a later frame with 2 Mbit/s and one without a bar:
the table has a scale to spare. -/
theorem bar_scale_safe_iff_default :
    drawFrames (fun _ rate max => rate*80/max) optionsSetDefaults barInit
      [[1000,64000],[300,200000,150000],[2000000],[]]≠none := by
  refine (bar_scale_safe_iff _ optionsSetDefaults rfl _).mpr (.inr ⟨[[1000,64000]],[300],200000,
    [150000],[[2000000],[]],rfl,?_,?_,by decide,by decide,?_⟩)
  · exact List.forall_mem_singleton.mpr fun x hx => by
      rcases List.mem_pair.mp hx with rfl|rfl <;> decide
  · exact fun x hx => by
      rw [List.mem_singleton.mp hx]
      decide
  · have hrest : thresholds ((fitting 200000).drop 2)=10000000::[100000000,1000000000,0] := rfl
    rw [hrest,climbs_cons_of_not (by decide),climbs_cons_of_not (by decide)]
    exact fun h => by cases h

/-- One bar of 200 Mbit/s reads the entry after the last. -/
theorem bar_scale_overrun :
    drawFrames (fun _ rate max => rate*80/max) optionsSetDefaults barInit [[200000000]]=none := by
  decide

end IftopColor.BarScale
