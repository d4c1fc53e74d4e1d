import IftopColor.FlowAccounting

/-!
# Bytes are conserved between flows and totals

The record side of a packet is decided by comparing its source with the key,
the totals side by the direction variable. Added up over the flows, every slot
of the history equals the same slot of the totals in every reachable state;
the two sides agree separately as long as all directions were fixed.
-/

namespace IftopColor.ByteConservation

open RecordStore AddrHash PacketDirection History FlowAccounting

variable {env : Env} {iptr : Packet} {hwDir : ℤ}

/-- Under a fixed direction the key is flipped exactly for incoming packets. -/
theorem assign_of_fixed (hi : IsIp iptr) (hf : DirectionFixed env iptr hwDir) :
    decideDirection env iptr hwDir=.drop ∨
      decideDirection env iptr hwDir=.assign false true ∨
      decideDirection env iptr hwDir=.assign true false := by
  have hfil (a b : Bool) : directionFiltered a b=.drop ∨ directionFiltered a b=.assign false true ∨
      directionFiltered a b=.assign true false := by
    cases a <;> cases b <;> simp [directionFiltered]
  rcases hi with h|h
  · cases hn : env.options.netfilter with
    | true => simpa [decideDirection,h,hn] using hfil _ _
    | false =>
      by_cases h1 : hwDir=1
      · simp [decideDirection,directionUnfiltered,h,hn,h1]
      by_cases h0 : hwDir=0
      · simp [decideDirection,directionUnfiltered,h,hn,h0]
      have hm : ipAddrMatch env (ipSrc iptr)=true ∨ ipAddrMatch env (ipDst iptr)=true := by
        simpa [DirectionFixed,h,h0,h1,hn] using hf
      by_cases hs : ipAddrMatch env (ipSrc iptr)=true
      · simp [decideDirection,directionUnfiltered,h,hn,h0,h1,hs]
      · have hd := hm.resolve_left hs
        simp [decideDirection,directionUnfiltered,h,hn,h0,h1,hs,hd]
  · cases hn : env.options.netfilter6 with
    | true => simpa [decideDirection,h,hn] using hfil _ _
    | false =>
      by_cases h1 : hwDir=1
      · simp [decideDirection,directionUnfiltered,h,hn,h1]
      by_cases h0 : hwDir=0
      · simp [decideDirection,directionUnfiltered,h,hn,h0]
      have hm : ip6AddrMatch env (ip6Src iptr)=true ∨ ip6AddrMatch env (ip6Dst iptr)=true := by
        simpa [DirectionFixed,h,h0,h1,hn] using hf
      by_cases hs : ip6AddrMatch env (ip6Src iptr)=true
      · simp [decideDirection,directionUnfiltered,h,hn,h0,h1,hs]
      · have hd := hm.resolve_left hs
        simp [decideDirection,directionUnfiltered,h,hn,h0,h1,hs,hd]

/-- With different endpoints and a fixed direction, the record side and the
totals side of a packet are the same; packets that are not IP are received. -/
theorem sent_eq_outgoing {a : Accounted} (h : account env iptr hwDir=some a)
    (hf : IsIp iptr→(srcEnd iptr).1≠(dstEnd iptr).1 ∧ DirectionFixed env iptr hwDir) :
    a.sent=a.outgoing := by
  obtain ⟨-,⟨flip,direction,hd,rfl⟩|⟨hd,rfl⟩⟩ := account_cases h
  · have hi : IsIp iptr := isIp_of_decided (by rw [hd]; simp)
    obtain ⟨hne,hfix⟩ := hf hi
    have hflip : direction=!flip := by
      rcases assign_of_fixed hi hfix with he|he|he <;> rw [hd] at he <;> simp at he <;> simp [he]
    rw [accountAs_assign hi,hflip]
    simp [hne]
  · by_cases hi : IsIp iptr
    · obtain ⟨-,hfix⟩ := hf hi
      rcases assign_of_fixed hi hfix with he|he|he <;> rw [hd] at he <;> simp at he
    · simp only [IsIp,not_or] at hi
      simp [accountAs,sourceIsFirst,hi.1,hi.2]

variable {frame : List ℕ} {s : Capture} {f : ℕ→List Accounted}

/-- The flows' bytes of a slot, by side, are those of the trace. -/
theorem sum_flows (h : Wf frame s) (ht : Follows s f) {i : ℕ} (hi : i<40) :
    ((flows s).map fun e => e.2.recv (histIdx s.historyPos i)).sum=((f i).map recvLen).sum ∧
      ((flows s).map fun e => e.2.sent (histIdx s.historyPos i)).sum=
        ((f i).map sentLen).sum := by
  have hkeys (w : Accounted→ℕ) : ((flows s).map fun e => flowSum w e.1 (f i)).sum=
      ((f i).map w).sum := by
    have hs := sum_by_key h.nodup Accounted.key w (f i) (ht.present i hi)
    rwa [keys,List.map_map] at hs
  constructor
  · rw [←hkeys]
    exact congrArg List.sum (List.map_congr_left fun e he => (ht.slots e he i hi).1)
  · rw [←hkeys]
    exact congrArg List.sum (List.map_congr_left fun e he => (ht.slots e he i hi).2)

/-- Added over both sides, flows and totals agree on every slot. -/
theorem conserved_of_follows (h : Wf frame s) (ht : Follows s f) (i : Slot) :
    ((flows s).map fun e => e.2.recv i+e.2.sent i).sum=
      s.historyTotals.recv i+s.historyTotals.sent i := by
  obtain ⟨j,hj,rfl⟩ := exists_histIdx s.historyPos i
  obtain ⟨h1,h2⟩ := sum_flows h ht hj
  obtain ⟨t1,t2⟩ := ht.totals j hj
  have hside (a : Accounted) : recvLen a+sentLen a=incomingLen a+outgoingLen a := by
    cases hs : a.sent <;> cases ho : a.outgoing <;>
      simp [recvLen,sentLen,incomingLen,outgoingLen,hs,ho]
  rw [List.sum_map_add,h1,h2,t1,t2,←List.sum_map_add,←List.sum_map_add]
  simp only [hside]

/-- In every reachable state the flows' bytes of every slot add up to the
totals' bytes of that slot. Received and sent bytes agree separately when all
accounted packets of the run had different endpoints and a fixed direction. -/
theorem byte_conservation (es : List Event) :
    (∀ i,((flows (run es)).map fun e => e.2.recv i+e.2.sent i).sum=
      (run es).historyTotals.recv i+(run es).historyTotals.sent i) ∧
    ((∀ env iptr hwDir,Event.packet env iptr hwDir∈es→account env iptr hwDir≠none→IsIp iptr→
        (srcEnd iptr).1≠(dstEnd iptr).1 ∧ DirectionFixed env iptr hwDir)→
      ∀ i,((flows (run es)).map fun e => e.2.recv i).sum=(run es).historyTotals.recv i ∧
        ((flows (run es)).map fun e => e.2.sent i).sum=(run es).historyTotals.sent i) := by
  obtain ⟨hw,ht⟩ := run_follows es
  refine ⟨conserved_of_follows hw ht,?_⟩
  intro hfix i
  obtain ⟨j,hj,rfl⟩ := exists_histIdx (run es).historyPos i
  obtain ⟨h1,h2⟩ := sum_flows hw ht hj
  obtain ⟨t1,t2⟩ := ht.totals j hj
  have hside : ∀ a∈slotPackets es j,a.sent=a.outgoing := by
    intro a ha
    obtain ⟨e,he,hacc⟩ := mem_slotPackets ha
    cases e with
    | rotate => simp [Event.accounted] at hacc
    | packet env iptr hwDir =>
      exact sent_eq_outgoing hacc (hfix env iptr hwDir he (by rw [Event.accounted] at hacc; simp [hacc]))
  rw [h1,h2,t1,t2]
  constructor
  · refine congrArg List.sum (List.map_congr_left fun a ha => ?_)
    rw [recvLen,incomingLen,hside a ha]
  · refine congrArg List.sum (List.map_congr_left fun a ha => ?_)
    rw [sentLen,outgoingLen,hside a ha]

end IftopColor.ByteConservation
