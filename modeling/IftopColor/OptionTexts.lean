import IftopColor.OptionsTwice

/-!
# Texts of options that are numbers

`net-filter` and `max-bandwidth` are texts with a number in them. What a text
should mean is stated apart from the readers: an address with a prefix length
or a mask, and digits with a unit. The readers agree with it but for numbers
without digits and numbers that are too large, which they accept.
-/

namespace IftopColor.OptionTexts

open NetBytes AddrHash Options NetFilter ConfigFile OptionsMake OptionsTwice

section NetFilters

variable {inetAton : CString→Option InAddr} {s : CString}

/-- `inet_aton` accepts dotted addresses only. -/
structure AcceptsAddresses (inetAton : CString→Option InAddr) : Prop where
  /-- An address has dots. -/
  dotted : ∀ {s m},inetAton s=some m→ '.'∈s
  /-- An address has no slash. -/
  no_slash : ∀ {s m},inetAton s=some m→ '/'∉s

/-- An address, a slash, and a prefix length or a mask. -/
def NetMaskText (inetAton : CString→Option InAddr) (s : CString) (net m : InAddr) : Prop :=
  ∃ addr mask,s=addr++ '/'::mask ∧ inetAton addr=some net ∧ MaskText inetAton mask m

/-- The filter is on exactly for such texts, with their mask and their masked
network. -/
structure FilterFaithful (inetAton : CString→Option InAddr) (s : CString) (o : OptionsT) :
    Prop where
  /-- The filter is on. -/
  on_iff : o.netfilter=true ↔ ∃ net m,NetMaskText inetAton s net m
  /-- What is stored then. -/
  stored : ∀ {net m},NetMaskText inetAton s net m→
    o.netfiltermask=m ∧ o.netfilternet=maskBytes net m

/-- An address, a slash, and a number without digits or above 32. -/
def NumberOutOfRange (inetAton : CString→Option InAddr) (s : CString) : Prop :=
  ∃ addr mask net,s=addr++ '/'::mask ∧ inetAton addr=some net ∧ isNumeric mask=true ∧
    (mask=[] ∨ 32<digitsValue mask)

/-- A text that is split was put together with a slash. -/
theorem splitSlash_eq {addr mask : CString} (h : splitSlash s=some (addr,mask)) :
    s=addr++ '/'::mask := by
  induction s generalizing addr with
  | nil => cases h
  | cons c cs ih =>
    rw [splitSlash] at h
    split at h
    · next hc =>
      cases h
      rw [hc]
      rfl
    · obtain ⟨⟨before,after⟩,hb,he⟩ := Option.map_eq_some_iff.mp h
      cases he
      rw [ih hb]
      rfl

/-- The filter is on for an address and anything that is all digits or a mask. -/
theorem netfilter_iff (h : AcceptsAddresses inetAton) (o : OptionsT) :
    (optionsConfigGetNetFilter inetAton (some s) o).2.2.netfilter=true ↔
      ∃ addr mask net,s=addr++ '/'::mask ∧ inetAton addr=some net ∧
        (isNumeric mask=true ∨ ∃ m,inetAton mask=some m) := by
  constructor
  · intro hon
    cases hs : splitSlash s with
    | none => simp [optionsConfigGetNetFilter,hs] at hon
    | some p =>
      obtain ⟨addr,mask⟩ := p
      refine ⟨addr,mask,?_⟩
      cases hn : inetAton addr with
      | none => simp [optionsConfigGetNetFilter,hs,hn] at hon
      | some net =>
        refine ⟨net,splitSlash_eq hs,rfl,?_⟩
        cases hd : isNumeric mask with
        | true => exact .inl rfl
        | false =>
          cases hm : inetAton mask with
          | none => simp [optionsConfigGetNetFilter,hs,hn,hd,hm] at hon
          | some m => exact .inr ⟨m,rfl⟩
  · rintro ⟨addr,mask,net,rfl,hn,hm⟩
    have hs := splitSlash_append (h.no_slash hn) mask
    cases hd : isNumeric mask with
    | true => simp [optionsConfigGetNetFilter,hs,hn,hd]
    | false =>
      obtain ⟨m,hm⟩ := hm.resolve_left (by simp [hd])
      simp [optionsConfigGetNetFilter,hs,hn,hd,hm]

/-- A numeral up to 32 behind the slash stands for a mask. -/
theorem maskText_digits (inetAton : CString→Option InAddr) {mask : CString}
    (hd : isNumeric mask=true) (hne : mask≠[])
    (hv : digitsValue mask≤32) : ∃ m,MaskText inetAton mask m := by
  obtain ⟨m,-,hm⟩ := prefixToMask_spec hv
  exact ⟨m,.inl ⟨_,hv,⟨hne,hd,rfl⟩,hm⟩⟩

/-- A number out of range stands for no mask. -/
theorem not_maskText {mask : CString} {m : InAddr} (hd : isNumeric mask=true)
    (hr : mask=[] ∨ 32<digitsValue mask) : ¬MaskText inetAton mask m := by
  rintro (⟨p,hp,hdec,-⟩|⟨hdot,-⟩)
  · have hv := hdec.value
    exact hr.elim hdec.nonempty fun hlt => by omega
  · have hall := List.all_eq_true.mp hd '.' hdot
    exact absurd hall (by decide)

/-- From all earlier options, a text set as net filter turns the filter on
exactly if it is well formed, with its mask and its masked network, if and only
if it is not an address with a number out of range. -/
theorem net_filter_text_iff (h : AcceptsAddresses inetAton) (s : CString) (o : OptionsT) :
    FilterFaithful inetAton s (optionsConfigGetNetFilter inetAton (some s) o).2.2 ↔
      ¬NumberOutOfRange inetAton s := by
  have hread {net m : InAddr} (ht : NetMaskText inetAton s net m) :
      (optionsConfigGetNetFilter inetAton (some s) o).2.2={o with
        netfilter := true,netfilternet := maskBytes net m,netfiltermask := m} := by
    obtain ⟨addr,mask,rfl,hn,hm⟩ := ht
    rw [getNetFilter_eq (h.no_slash hn) hn hm]
  constructor
  · rintro hf ⟨addr,mask,net,hs,hn,hd,hr⟩
    have hon := (netfilter_iff (s:=s) h o).mpr ⟨addr,mask,net,hs,hn,.inl hd⟩
    obtain ⟨net',m,addr',mask',hs',hn',hm⟩ := hf.on_iff.mp hon
    have h1 := splitSlash_append (h.no_slash hn) mask
    have h2 := splitSlash_append (h.no_slash hn') mask'
    rw [←hs] at h1
    rw [←hs',h1,Option.some.injEq,Prod.mk.injEq] at h2
    exact not_maskText hd hr (h2.2 ▸ hm)
  · intro hr
    refine ⟨⟨fun hon => ?_,?_⟩,?_⟩
    · obtain ⟨addr,mask,net,hs,hn,hm⟩ := (netfilter_iff h o).mp hon
      cases hd : isNumeric mask with
      | true =>
        have hin : ¬(mask=[] ∨ 32<digitsValue mask) := fun hout => hr ⟨addr,mask,net,hs,hn,hd,hout⟩
        rw [not_or,not_lt] at hin
        obtain ⟨m,hm⟩ := maskText_digits inetAton hd hin.1 hin.2
        exact ⟨net,m,addr,mask,hs,hn,hm⟩
      | false =>
        obtain ⟨m,hm⟩ := hm.resolve_left (by simp [hd])
        exact ⟨net,m,addr,mask,hs,hn,.inr ⟨h.dotted hm,hm⟩⟩
    · rintro ⟨net,m,ht⟩
      rw [hread ht]
    · intro net m ht
      rw [hread ht]
      exact ⟨rfl,rfl⟩

/-- `parseQuad` accepts every text of four numbers and dots. -/
theorem parseQuad_accepts : AcceptsAddresses parseQuad := by
  have hparts {s : CString} {m : InAddr} (h : parseQuad s=some m) :
      ∃ a b c d : CString,s=a++ '.'::(b++ '.'::(c++ '.'::d)) ∧
        ∀ part∈[a,b,c,d],isNumeric part=true := by
    unfold parseQuad at h
    split at h
    · next a b c d hs =>
      split at h
      · next hall =>
        refine ⟨a,b,c,d,?_,fun part hp => ?_⟩
        · have hi : ['.'].intercalate (s.splitOn '.')=s := List.intercalate_splitOn '.'
          rw [←hi,hs]
          simp [List.intercalate]
        · have hp' := List.all_eq_true.mp hall part hp
          simp only [Bool.and_eq_true] at hp'
          exact hp'.1.2
      · cases h
    · cases h
  have hslash {part : CString} (h : isNumeric part=true) : '/'∉part := by
    intro hm
    exact absurd (List.all_eq_true.mp h '/' hm) (by decide)
  constructor
  · intro s m h
    obtain ⟨a,b,c,d,rfl,-⟩ := hparts h
    simp
  · intro s m h
    obtain ⟨a,b,c,d,rfl,hall⟩ := hparts h
    simp [hslash (hall a (by simp)),hslash (hall b (by simp)),hslash (hall c (by simp)),
      hslash (hall d (by simp))]

/-- The filter `10.0.1.0/24` is read as it should be. -/
theorem net_filter_text_iff_slash24 :
    FilterFaithful parseQuad "10.0.1.0/24".toList
      (optionsConfigGetNetFilter parseQuad (some "10.0.1.0/24".toList) optionsSetDefaults).2.2 := by
  refine (net_filter_text_iff parseQuad_accepts _ _).mpr ?_
  rintro ⟨addr,mask,net,hs,hn,hd,hr⟩
  have h1 := splitSlash_append (parseQuad_accepts.no_slash hn) mask
  have h2 : splitSlash "10.0.1.0/24".toList=some ("10.0.1.0".toList,"24".toList) := by decide
  rw [←hs,h2,Option.some.injEq,Prod.mk.injEq] at h1
  have hm : ¬("24".toList=[] ∨ 32<digitsValue "24".toList) := by decide
  exact hm (h1.2 ▸ hr)

/-- A prefix length of 99 leaves the filter on, with the mask of the defaults. -/
theorem net_filter_text_99 :
    let o := (optionsConfigGetNetFilter parseQuad (some "192.168.0.0/99".toList)
      optionsSetDefaults).2.2
    o.netfilter=true ∧ o.netfiltermask=![255,255,255,0] ∧
      ¬FilterFaithful parseQuad "192.168.0.0/99".toList o := by
  have hs : splitSlash "192.168.0.0/99".toList=some ("192.168.0.0".toList,"99".toList) := by decide
  have hon : (optionsConfigGetNetFilter parseQuad (some "192.168.0.0/99".toList)
      optionsSetDefaults).2.2.netfilter=true := by decide
  refine ⟨hon,by decide,fun hf => ?_⟩
  obtain ⟨net,m,addr,mask,he,hn,hm⟩ := hf.on_iff.mp hon
  have h1 := splitSlash_append (parseQuad_accepts.no_slash hn) mask
  rw [←he,hs,Option.some.injEq,Prod.mk.injEq] at h1
  have hnum : isNumeric "99".toList=true := by decide
  exact not_maskText hnum (.inr (by decide)) (h1.2 ▸ hm)

end NetFilters

section Bandwidths

/-- `options_config_get_bw_rate`: the value that it returns. -/
def optionsConfigGetBwRateReturns (str : Option CString) : Bool :=
  match str with
  | none => false
  | some str =>
    match str.dropWhile Char.isDigit with
    | [] => true
    | [unit] => (unitFactor unit).isSome
    | _ => false

/-- The power of 1024 that a unit stands for. -/
def unitPower (unit : Char) : Option ℕ :=
  if unit∈"bB".toList then some 0
  else if unit∈"kK".toList then some 1
  else if unit∈"mM".toList then some 2
  else if unit∈"gG".toList then some 3
  else none

/-- Digits and at most one unit. -/
structure RateText (s digits : CString) (power : ℕ) : Prop where
  /-- There are only digits before the unit. -/
  numeric : isNumeric digits=true
  /-- There is no unit or one that is known. -/
  unit : (s=digits ∧ power=0) ∨ ∃ unit,s=digits++[unit] ∧ unitPower unit=some power

/-- The bits per second that a text stands for. -/
def BandwidthText (s : CString) (n : ℕ) : Prop :=
  ∃ digits power,RateText s digits power ∧ digits≠[] ∧ n=digitsValue digits*1024^power ∧ n<2^63

/-- The text is accepted exactly if it stands for a rate, which is stored then,
and otherwise the rate stays. -/
structure RateFaithful (value : Int64) (s : CString) (maxBandwidth : ℤ) : Prop where
  /-- Accepted texts. -/
  accepted_iff : optionsConfigGetBwRateReturns (some s)=true ↔ ∃ n,BandwidthText s n
  /-- What is stored then. -/
  stored : ∀ {n},BandwidthText s n→(optionsConfigGetBwRate value (some s) maxBandwidth).2=n
  /-- Rejected texts. -/
  rejected : optionsConfigGetBwRateReturns (some s)=false→
    (optionsConfigGetBwRate value (some s) maxBandwidth).2=maxBandwidth

/-- A known unit or none, with no digits or with a rate beyond 64 bits. -/
def RateOutOfRange (s : CString) : Prop :=
  ∃ digits power,RateText s digits power ∧ (digits=[] ∨ 2^63≤digitsValue digits*1024^power)

variable {s digits : CString} {power : ℕ}

/-- Units have the factors of their powers, and are no digits. -/
theorem unitFactor_eq (unit : Char) :
    unitFactor unit=(unitPower unit).map fun power => Int64.ofNat (1024^power) := by
  unfold unitFactor unitPower
  simp only [String.reduceToList,List.mem_cons,List.not_mem_nil,or_false]
  by_cases hk : unit= 'k' ∨ unit= 'K'
  · rcases hk with rfl|rfl <;> decide
  by_cases hm : unit= 'm' ∨ unit= 'M'
  · rcases hm with rfl|rfl <;> decide
  by_cases hg : unit= 'g' ∨ unit= 'G'
  · rcases hg with rfl|rfl <;> decide
  by_cases hb : unit= 'b' ∨ unit= 'B'
  · rcases hb with rfl|rfl <;> decide
  · simp [hk,hm,hg,hb]

/-- The letter of a unit is no digit and stands for at most the third power. -/
theorem unitPower_digit {unit : Char} (h : unitPower unit=some power) :
    unit.isDigit=false ∧ power≤3 := by
  unfold unitPower at h
  simp only [String.reduceToList,List.mem_cons,List.not_mem_nil,or_false] at h
  split_ifs at h with hb hk hm hg
  · cases h
    exact ⟨by rcases hb with rfl|rfl <;> decide,by decide⟩
  · cases h
    exact ⟨by rcases hk with rfl|rfl <;> decide,by decide⟩
  · cases h
    exact ⟨by rcases hm with rfl|rfl <;> decide,by decide⟩
  · cases h
    exact ⟨by rcases hg with rfl|rfl <;> decide,by decide⟩

/-- What the reader takes for digits and unit. -/
theorem RateText.cut (h : RateText s digits power) :
    s.takeWhile Char.isDigit=digits ∧ ((s.dropWhile Char.isDigit=[] ∧ power=0) ∨
      ∃ unit,s.dropWhile Char.isDigit=[unit] ∧ unitPower unit=some power) := by
  have hd : ∀ c∈digits,Char.isDigit c=true := List.all_eq_true.mp h.numeric
  rcases h.unit with ⟨rfl,hp⟩|⟨unit,rfl,hu⟩
  · exact ⟨List.takeWhile_eq_self_iff.mpr hd,.inl ⟨List.dropWhile_eq_nil_iff.mpr hd,hp⟩⟩
  · have hn := (unitPower_digit hu).1
    rw [List.takeWhile_append_of_pos hd,List.dropWhile_append_of_pos hd]
    exact ⟨by simp [hn],.inr ⟨unit,by simp [hn],hu⟩⟩

/-- A text is a rate in one way at most: its digits and its unit are determined. -/
theorem RateText.unique {digits' : CString} {power' : ℕ} (h : RateText s digits power)
    (h' : RateText s digits' power') : digits=digits' ∧ power=power' := by
  obtain ⟨hd,hu⟩ := h.cut
  obtain ⟨hd',hu'⟩ := h'.cut
  refine ⟨hd.symm.trans hd',?_⟩
  rcases hu with ⟨hr,hp⟩|⟨unit,hr,hp⟩ <;> rcases hu' with ⟨hr',hp'⟩|⟨unit',hr',hp'⟩ <;>
    rw [hr] at hr'
  · rw [hp,hp']
  · cases hr'
  · cases hr'
  · cases hr'
    exact Option.some.inj (hp.symm.trans hp')

/-- Texts with digits and a unit are accepted, also without digits. -/
theorem returns_iff :
    optionsConfigGetBwRateReturns (some s)=true ↔ ∃ digits power,RateText s digits power := by
  constructor
  · intro h
    have hn : isNumeric (s.takeWhile Char.isDigit)=true :=
      List.all_eq_true.mpr fun c hc => List.mem_takeWhile_imp hc
    have hs : s.takeWhile Char.isDigit++s.dropWhile Char.isDigit=s :=
      List.takeWhile_append_dropWhile
    refine ⟨s.takeWhile Char.isDigit,?_⟩
    unfold optionsConfigGetBwRateReturns at h
    dsimp only at h
    split at h
    · next hr =>
      rw [hr,List.append_nil] at hs
      exact ⟨0,hn,.inl ⟨hs.symm,rfl⟩⟩
    · next unit hr =>
      rw [hr] at hs
      rw [unitFactor_eq,Option.isSome_map] at h
      obtain ⟨power,hp⟩ := Option.isSome_iff_exists.mp h
      exact ⟨power,hn,.inr ⟨unit,hs.symm,hp⟩⟩
    · cases h
  · rintro ⟨digits,power,h⟩
    obtain ⟨-,⟨hr,-⟩|⟨unit,hr,hp⟩⟩ := h.cut
    · simp only [optionsConfigGetBwRateReturns,hr]
    · simp only [optionsConfigGetBwRateReturns,hr,unitFactor_eq,hp,Option.map_some,
        Option.isSome_some]

/-- Rejected texts leave the rate alone. -/
theorem rate_rejected (h : optionsConfigGetBwRateReturns (some s)=false) (value : Int64) (m : ℤ) :
    (optionsConfigGetBwRate value (some s) m).2=m := by
  cases hr : s.dropWhile Char.isDigit with
  | nil => simp [optionsConfigGetBwRateReturns,hr] at h
  | cons unit rest =>
    cases rest with
    | cons _ _ => simp only [optionsConfigGetBwRate,hr]
    | nil =>
      cases hu : unitFactor unit with
      | none => simp only [optionsConfigGetBwRate,hr,hu]
      | some mult => simp [optionsConfigGetBwRateReturns,hr,hu] at h

/-- An accepted text sets the product of its digits and its unit, in 64 bits. -/
theorem rate_accepted (h : RateText s digits power) (value : Int64) (m : ℤ) :
    (optionsConfigGetBwRate value (some s) m).2=
      (scanRate digits value*Int64.ofNat (1024^power)).toInt := by
  obtain ⟨hd,⟨hr,hp⟩|⟨unit,hr,hp⟩⟩ := h.cut
  · simp only [optionsConfigGetBwRate,hr,hd,hp]
    rfl
  · simp only [optionsConfigGetBwRate,hr,hd,unitFactor_eq,hp,Option.map_some]

/-- A product below 2^63 is the exact rate. -/
theorem rate_exact (hne : digits≠[]) (h : digitsValue digits*1024^power<2^63) (value : Int64) :
    (scanRate digits value*Int64.ofNat (1024^power)).toInt=(digitsValue digits*1024^power : ℕ) := by
  have hp : 0<1024^power := Nat.pow_pos (by decide)
  have hd : digitsValue digits≤digitsValue digits*1024^power := Nat.le_mul_of_pos_right _ hp
  rw [scanRate,if_neg hne,Nat.min_eq_left (by omega),←Int64.ofNat_mul]
  exact Int64.toInt_ofNat_of_lt h

/-- A text set as maximal bandwidth is accepted exactly if it is digits with at
most one known unit and a rate within 64 bits, which is stored then, and
otherwise leaves the rate alone, if and only if it is not a unit without digits,
nothing at all or a rate beyond 64 bits. -/
theorem bandwidth_text_iff (value : Int64) (s : CString) (maxBandwidth : ℤ) :
    RateFaithful value s maxBandwidth ↔ ¬RateOutOfRange s := by
  constructor
  · rintro hf ⟨digits,power,ht,hr⟩
    obtain ⟨n,digits',power',ht',hne,hn,hlt⟩ :=
      hf.accepted_iff.mp (returns_iff.mpr ⟨digits,power,ht⟩)
    obtain ⟨rfl,rfl⟩ := ht.unique ht'
    exact hr.elim hne fun hle => by omega
  · intro hr
    refine ⟨⟨fun ha => ?_,?_⟩,?_,fun hj => rate_rejected hj value maxBandwidth⟩
    · obtain ⟨digits,power,ht⟩ := returns_iff.mp ha
      have hin : ¬(digits=[] ∨ 2^63≤digitsValue digits*1024^power) :=
        fun hout => hr ⟨digits,power,ht,hout⟩
      rw [not_or,not_le] at hin
      exact ⟨_,digits,power,ht,hin.1,rfl,hin.2⟩
    · rintro ⟨n,digits,power,ht,-⟩
      exact returns_iff.mpr ⟨digits,power,ht⟩
    · rintro n ⟨digits,power,ht,hne,rfl,hlt⟩
      rw [rate_accepted ht,rate_exact hne hlt]

/-- A unit without digits is accepted, and the rate is what the variable held. -/
theorem bandwidth_text_lone_unit :
    optionsConfigGetBwRateReturns (some "k".toList)=true ∧
      (∀ value,(optionsConfigGetBwRate value (some "k".toList) 0).2=(value*1024).toInt) ∧
      ∀ value,¬RateFaithful value "k".toList 0 := by
  have ht : RateText "k".toList [] 1 := ⟨rfl,.inr ⟨'k',rfl,by decide⟩⟩
  have hr : optionsConfigGetBwRateReturns (some "k".toList)=true := by decide
  refine ⟨hr,fun value => rfl,fun value hf => ?_⟩
  obtain ⟨n,digits,power,ht',hne,-⟩ := hf.accepted_iff.mp hr
  exact hne (ht.unique ht').1.symm

end Bandwidths

end IftopColor.OptionTexts
