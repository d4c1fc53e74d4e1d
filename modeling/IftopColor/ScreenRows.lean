import IftopColor.Screen
import IftopColor.SortedList

/-!
# The rows of the screen

The part of `ui_print` that draws the lines of the list. One iterator skips as many
lines as the screen is scrolled by and then goes on to the lines that are drawn, where a
null pointer stands for the beginning of the list and for its end. The rows drawn are a
slice of the lines that the screen filter keeps.
-/

namespace IftopColor.ScreenRows

open Options Screen SortedList LinkedCells

/-- One line on the screen. -/
structure Row where
  /-- The row of the line. -/
  y : ℤ
  /-- The node of the list. -/
  node : ℕ
  /-- The line of the node. -/
  screenLine : HostPairLine
  /-- The first text. -/
  host1 : List Char
  /-- The second text. -/
  host2 : List Char

/-- What `ui_print` works with. -/
structure Print where
  /-- `screen_list`. -/
  screenList : SortedListType HostPairLine
  /-- `LINES`. -/
  lines : ℤ
  /-- `options.showhelp`. -/
  showhelp : Bool
  /-- `options.screen_offset`. -/
  screenOffset : ℕ
  /-- `options.linedisplay`. -/
  linedisplay : LineDisplay
  /-- The texts that `sprint_host` makes when the loop comes to a node. -/
  sprintHosts : ℕ→HostPairLine→List Char×List Char
  /-- `screen_filter_match`. -/
  screenFilterMatch : List Char→Bool

variable (p : Print)

/-- The rows a line takes. -/
def Print.step : ℤ := if p.linedisplay=.twoLine then 2 else 1

/-- The loop that skips lines, with the number of lines left to skip, `i` and `nn`. -/
def skipLines : ℕ→ℕ→Option ℕ→ℕ×Option ℕ
  | 0,i,nn => (i,nn)
  | left+1,i,nn =>
    match sortedListNextItem p.screenList nn with
    | none => (i,none)
    | some node => skipLines left (i+1) (some node)

/-- The loop that draws lines, at most `fuel` times. The row is tested again in its body, with
the same outcome. -/
def drawLines : ℕ→ℤ→Option ℕ→List Row
  | 0,_,_ => []
  | fuel+1,y,nn =>
    if y<p.lines-5 then
      match sortedListNextItem p.screenList nn with
      | none => []
      | some node =>
        match (p.screenList.heap node).map ListNode.data with
        | none => []
        | some screenLine =>
          let (host1,host2) := p.sprintHosts node screenLine
          if !p.screenFilterMatch host1 && !p.screenFilterMatch host2 then
            drawLines fuel y (some node)
          else ⟨y,node,screenLine,host1,host2⟩::drawLines fuel (y+p.step) (some node)
    else []

/-- What `ui_print` draws below the scale, which ends above row `y`. -/
def uiPrint (y : ℤ) : List Row :=
  if p.showhelp then []
  else
    let (i,nn) := skipLines p p.screenOffset 0 none
    if i=0 ∨ nn≠none then drawLines p p.screenList.brk y nn else []

/-- The number of rows from `y` on that are above the totals. -/
def rowsFit (y : ℤ) : ℕ := ((p.lines-5-y+p.step-1)/p.step).toNat

/-- The lines that the filter keeps. -/
def kept (cells : List (ℕ×HostPairLine)) : List (ℕ×HostPairLine) :=
  cells.filter fun c =>
    p.screenFilterMatch (p.sprintHosts c.1 c.2).1 || p.screenFilterMatch (p.sprintHosts c.1 c.2).2

/-- A line at its row. -/
def rowOf (y : ℤ) (c : (ℕ×HostPairLine)×ℕ) : Row :=
  ⟨y+p.step*c.2,c.1.1,c.1.2,(p.sprintHosts c.1.1 c.1.2).1,(p.sprintHosts c.1.1 c.1.2).2⟩

/-- The slice of a list from row `y` on. -/
def slice (y : ℤ) (cells : List (ℕ×HostPairLine)) : List Row :=
  (((kept p (cells.drop p.screenOffset)).take (rowsFit p y)).zipIdx).map (rowOf p y)

variable {p : Print} {cells : List (ℕ×HostPairLine)} {nn : Option ℕ} {y : ℤ}

/-- A line takes two rows in two-line mode and one otherwise. -/
theorem step_cases (p : Print) : p.step=1 ∨ p.step=2 := by
  unfold Print.step
  split <;> simp

/-- A row fits if it is above the totals. -/
theorem lt_rowsFit_iff (p : Print) (y : ℤ) (j : ℕ) : j< rowsFit p y ↔ y+p.step*j<p.lines-5 := by
  unfold rowsFit
  rcases step_cases p with hs|hs <;> rw [hs] <;> omega

/-- The row behind a line is that of the next line. -/
theorem next_row (p : Print) (y : ℤ) (n : ℕ) : y+p.step*n+p.step=y+p.step*(n+1 : ℕ) := by
  rw [Nat.cast_add_one,mul_add,mul_one,add_assoc]

/-- The loop passes over the lines that are not kept. -/
theorem passes_iff (p : Print) (c : ℕ×HostPairLine) :
    (!p.screenFilterMatch (p.sprintHosts c.1 c.2).1 &&
        !p.screenFilterMatch (p.sprintHosts c.1 c.2).2)=true ↔
      ¬(p.screenFilterMatch (p.sprintHosts c.1 c.2).1 ||
        p.screenFilterMatch (p.sprintHosts c.1 c.2).2)=true := by
  rw [← Bool.not_or,Bool.not_eq_true',Bool.not_eq_true]

/-- The loop draws the slice of what is left. -/
theorem drawLines_eq {fuel n : ℕ}
    (hc : Chain p.screenList.next (sortedListNextItem p.screenList nn) (cells.map Prod.fst))
    (hs : ∀ c∈cells,Stored p.screenList c) (hf : cells.length≤ fuel) :
    drawLines p fuel (y+p.step*n) nn=
      (((kept p cells).take (rowsFit p y-n)).zipIdx n).map (rowOf p y) := by
  induction cells generalizing fuel nn n with
  | nil =>
    have hend : sortedListNextItem p.screenList nn=none := hc
    have hnone : ((kept p []).take (rowsFit p y-n)).zipIdx n=[] := by simp [kept]
    rw [hnone]
    cases fuel with
    | zero => rfl
    | succ fuel =>
      rw [drawLines,hend]
      split <;> rfl
  | cons c cells ih =>
    obtain ⟨hhead,hrest⟩ := hc
    obtain ⟨fuel,rfl⟩ : ∃ k,fuel=k+1 := ⟨fuel-1,by rw [List.length_cons] at hf; omega⟩
    rw [drawLines]
    by_cases hroom : y+p.step*n<p.lines-5
    · have hfit := (lt_rowsFit_iff p y n).mpr hroom
      have hrest' : Chain p.screenList.next (sortedListNextItem p.screenList (some c.1))
          (cells.map Prod.fst) := hrest
      have hstored : ∀ x∈cells,Stored p.screenList x := fun x hx =>
        hs x (List.mem_cons_of_mem _ hx)
      have hlen : cells.length≤ fuel := Nat.le_of_succ_le_succ hf
      rw [if_pos hroom,hhead]
      simp only [(hs c List.mem_cons_self).data]
      by_cases hmatch : (p.screenFilterMatch (p.sprintHosts c.1 c.2).1 ||
          p.screenFilterMatch (p.sprintHosts c.1 c.2).2)=true
      · have hk : kept p (c::cells)=c::kept p cells := List.filter_cons_of_pos hmatch
        have hleft : rowsFit p y-n=rowsFit p y-(n+1)+1 := by omega
        rw [if_neg fun h => (passes_iff p c).mp h hmatch,next_row,ih (n:=n+1) hrest' hstored hlen,
          hk,hleft,List.take_succ_cons,List.zipIdx_cons,List.map_cons]
        rfl
      · have hk : kept p (c::cells)=kept p cells := List.filter_cons_of_neg hmatch
        rw [if_pos ((passes_iff p c).mpr hmatch),ih (n:=n) hrest' hstored hlen,hk]
    · have hfull : rowsFit p y-n=0 := by
        have := mt (lt_rowsFit_iff p y n).mp hroom
        omega
      rw [if_neg hroom,hfull,List.take_zero]
      rfl

/-- Skipping ends in front of what is left of the list, or runs over its end. -/
theorem skipLines_eq (left : ℕ) {i : ℕ}
    (hc : Chain p.screenList.next (sortedListNextItem p.screenList nn) (cells.map Prod.fst)) :
    if left≤ cells.length then (skipLines p left i nn).1=i+left ∧
        (left=0→(skipLines p left i nn).2=nn) ∧ (left≠0→(skipLines p left i nn).2≠none) ∧
        Chain p.screenList.next (sortedListNextItem p.screenList (skipLines p left i nn).2)
          ((cells.drop left).map Prod.fst)
    else skipLines p left i nn=(i+cells.length,none) := by
  induction left generalizing cells i nn with
  | zero => exact ⟨rfl,fun _ => rfl,fun h => absurd rfl h,hc⟩
  | succ left ih =>
    cases cells with
    | nil =>
      have hend : sortedListNextItem p.screenList nn=none := hc
      rw [if_neg (by simp),skipLines,hend]
      rfl
    | cons c cells =>
      obtain ⟨hhead,hrest⟩ := hc
      have hnext : Chain p.screenList.next (sortedListNextItem p.screenList (some c.1))
          (cells.map Prod.fst) := hrest
      have hstep := ih (i:=i+1) hnext
      rw [skipLines,hhead]
      simp only [List.length_cons,Nat.add_le_add_iff_right,List.drop_succ_cons]
      by_cases hle : left≤ cells.length
      · rw [if_pos hle] at hstep ⊢
        obtain ⟨hi,hzero,hsome,hchain⟩ := hstep
        refine ⟨by rw [hi]; omega,nofun,fun _ => ?_,hchain⟩
        by_cases hl : left=0
        · rw [hzero hl]
          nofun
        · exact hsome hl
      · rw [if_neg hle] at hstep ⊢
        rw [hstep,Prod.mk.injEq]
        exact ⟨by omega,rfl⟩

/-- No node is drawn twice, since the nodes of a list are distinct. -/
theorem slice_nodup (hn : (cells.map Prod.fst).Nodup) : ((slice p y cells).map Row.node).Nodup := by
  have hnodes : (slice p y cells).map Row.node=
      ((kept p (cells.drop p.screenOffset)).take (rowsFit p y)).map Prod.fst := by
    have hfst : ∀ l : List (ℕ×HostPairLine),l.map Prod.fst=(l.zipIdx.map Prod.fst).map Prod.fst :=
      fun l => by rw [List.zipIdx_map_fst]
    rw [slice,hfst,List.map_map,List.map_map]
    rfl
  have hsub : ((kept p (cells.drop p.screenOffset)).take (rowsFit p y)).Sublist cells :=
    (List.take_sublist ..).trans (List.filter_sublist.trans (List.drop_sublist ..))
  rw [hnodes]
  exact (hsub.map Prod.fst).nodup hn

/-- Beyond the end of the list there is no slice. -/
theorem slice_eq_nil (h : cells.length≤ p.screenOffset) (y : ℤ) : slice p y cells=[] := by
  simp [slice,List.drop_eq_nil_of_le h,kept]

/-- When help is off, the slice is drawn. -/
theorem uiPrint_eq (hl : Represents p.screenList cells) (hh : p.showhelp=false) (y : ℤ) :
    uiPrint p y=slice p y cells := by
  have hlen := hl.length_le
  rw [List.length_map] at hlen
  have hstart : Chain p.screenList.next (sortedListNextItem p.screenList none)
      (cells.map Prod.fst) := hl.chain
  have hskip := skipLines_eq p.screenOffset (i:=0) hstart
  simp only [uiPrint,hh,Bool.false_eq_true,if_false]
  by_cases hle : p.screenOffset≤ cells.length
  · rw [if_pos hle] at hskip
    obtain ⟨hi,hzero,hsome,hchain⟩ := hskip
    have hgo : (skipLines p p.screenOffset 0 none).1=0 ∨
        (skipLines p p.screenOffset 0 none).2≠none := by
      by_cases h0 : p.screenOffset=0
      · exact .inl (by omega)
      · exact .inr (hsome h0)
    have hfuel : (cells.drop p.screenOffset).length≤ p.screenList.brk := by
      rw [List.length_drop]
      omega
    have hdraw := drawLines_eq (y:=y) (n:=0) hchain
      (fun c hc => hl.stored c (List.mem_of_mem_drop hc)) hfuel
    rw [Nat.cast_zero,mul_zero,add_zero] at hdraw
    rw [if_pos hgo,hdraw]
    rfl
  · rw [if_neg hle] at hskip
    rw [hskip,slice_eq_nil (Nat.le_of_not_le hle)]
    by_cases hempty : cells.length=0
    · have hnil : cells=[] := List.length_eq_zero_iff.mp hempty
      subst hnil
      have hdraw := drawLines_eq (y:=y) (n:=0) hstart nofun (Nat.zero_le p.screenList.brk)
      rw [Nat.cast_zero,mul_zero,add_zero] at hdraw
      rw [if_pos (.inl rfl),hdraw]
      simp [kept]
    · rw [if_neg (by simp [hempty])]

/-- When help is off, the rows drawn are those lines behind the screen offset that the filter
keeps, as many as there are rows that fit. Each line is drawn once, and nothing is drawn
if the offset is beyond the list. -/
theorem uiPrint_slice (hl : Represents p.screenList cells) (hh : p.showhelp=false) (y : ℤ) :
    uiPrint p y=slice p y cells ∧ (∀ j : ℕ,j< rowsFit p y ↔ y+p.step*j<p.lines-5) ∧
      ((uiPrint p y).map Row.node).Nodup ∧
      (cells.length≤ p.screenOffset→uiPrint p y=[]) := by
  have hslice := uiPrint_eq hl hh y
  have hnodup := slice_nodup (p:=p) (y:=y) (Chain.nodup hl.chain)
  exact ⟨hslice,lt_rowsFit_iff p y,by rwa [hslice],
    fun hbeyond => hslice.trans (slice_eq_nil hbeyond y)⟩

/-- Links of a list of five lines, in an order that is not that of their addresses. -/
def fiveLinks : ℕ→Option ℕ
  | 3 => some 0
  | 0 => some 4
  | 4 => some 1
  | 1 => some 2
  | _ => none

/-- Ten rows, and a list scrolled by one line, with a filter that drops node 4. -/
def scrolled : Print where
  screenList :=
    {(sortedListInitialise : SortedListType HostPairLine) with
      rootNext := some 3
      heap := fun a => if a<5 then some ⟨fiveLinks a,HostPairLine.zero⟩ else none
      brk := 5}
  lines := 10
  showhelp := false
  screenOffset := 1
  linedisplay := .twoLine
  sprintHosts node _ := (['h',Char.ofNat (48+node)],['*'])
  screenFilterMatch text := text.head?=some 'h' ∧ text≠['h','4']

/-- The first line is scrolled away, the third is dropped, and there is no room for the last. -/
theorem uiPrint_slice_scrolled :
    (uiPrint scrolled 2).map (fun row => (row.y,row.node))=[(2,0),(4,1)] ∧
      ((uiPrint scrolled 2).map Row.node).Nodup := by
  have hl : Represents scrolled.screenList ([3,0,4,1,2].map fun a => (a,HostPairLine.zero)) :=
    ⟨⟨rfl,rfl,rfl,rfl,rfl,rfl⟩,by
      intro c hc
      obtain ⟨a,ha,rfl⟩ := List.mem_map.mp hc
      have hlt : a<5 := by
        simp only [List.mem_cons,List.not_mem_nil,or_false] at ha
        omega
      exact ⟨by simp [scrolled,hlt],hlt⟩⟩
  have hslice := uiPrint_slice hl rfl 2
  refine ⟨?_,hslice.2.2.1⟩
  rw [hslice.1]
  rfl

end IftopColor.ScreenRows
