import IftopColor.OptionsMake

/-!
# Making the options twice

`options_make` may run again on the same configuration. Most of its readers look at
a text and leave it alone, and find the same text the next time. The reader of the
maximal bandwidth writes a terminator over the unit, and the readers of the net
filters write one over the slash, in the text that the configuration keeps; the next
call reads what is left. A second call changes nothing exactly when there is nothing
to cut off, and when the maximal bandwidth is not an empty text, which is read into
no variable at all.
-/

namespace IftopColor.OptionsTwice

open SearchTree ConfigFile Options NetFilter OptionsMake

/-- A second call leaves every option as the first call left it, and neither call
changes a text of the configuration, whatever the uninitialised variable holds. -/
structure Idempotent (sys : System) (p : Program) : Prop where
  /-- Options. -/
  options : ∀ value value',(optionsMake sys value' (optionsMake sys value p)).options=
    (optionsMake sys value p).options
  /-- Texts after the first call. -/
  texts : ∀ value d,configGetString (optionsMake sys value p).config d=configGetString p.config d
  /-- Texts after the second call. -/
  texts_again : ∀ value value' d,
    configGetString (optionsMake sys value' (optionsMake sys value p)).config d=
      configGetString (optionsMake sys value p).config d

/-- Digits and a unit. -/
def HasUnit (v : CString) : Prop :=
  ∃ digits unit,(∀ c∈digits,Char.isDigit c=true) ∧ unit∈"kKmMgGbB".toList ∧ v=digits++[unit]

/-- The texts that readers write into have nothing that is cut off. -/
structure Settled (config : StringMap) : Prop where
  /-- A maximal bandwidth is not empty and has no unit. -/
  rate : ∀ v∈configGetString config "max-bandwidth".toList,v≠[] ∧ ¬HasUnit v
  /-- An IPv4 net filter has no mask. -/
  net : ∀ v∈configGetString config "net-filter".toList, '/'∉v
  /-- An IPv6 net filter has no prefix. -/
  net6 : ∀ v∈configGetString config "net-filter6".toList, '/'∉v

variable {v : CString}

/-- Units have a factor and are no digits. -/
theorem unit_spec {unit : Char} (h : unit∈"kKmMgGbB".toList) :
    (∃ mult,unitFactor unit=some mult) ∧ unit.isDigit=false := by
  simp only [String.reduceToList,List.mem_cons,List.not_mem_nil,or_false] at h
  rcases h with rfl|rfl|rfl|rfl|rfl|rfl|rfl|rfl <;> exact ⟨⟨_,rfl⟩,rfl⟩

/-- A bandwidth with a unit is not written back as it was, since the unit is cut off. -/
theorem getBwRate_unit (h : HasUnit v) (value : Int64) (m : ℤ) :
    (optionsConfigGetBwRate value (some v) m).1≠some v := by
  obtain ⟨digits,unit,hd,hu,rfl⟩ := h
  obtain ⟨⟨mult,hm⟩,hn⟩ := unit_spec hu
  have htake : (digits++[unit]).takeWhile Char.isDigit=digits := by
    rw [List.takeWhile_append_of_pos hd]
    simp [hn]
  have hdrop : (digits++[unit]).dropWhile Char.isDigit=[unit] := by
    rw [List.dropWhile_append_of_pos hd]
    simp [hn]
  simp only [optionsConfigGetBwRate,htake,hdrop,hm]
  intro he
  have hlen := congrArg List.length (Option.some.inj he)
  simp at hlen

/-- Any other text that is not empty stays, and is rejected or gives one rate. -/
theorem getBwRate_settled (hne : v≠[]) (h : ¬HasUnit v) :
    (∀ value m,optionsConfigGetBwRate value (some v) m=(some v,m)) ∨
      ∃ rate,∀ value m,optionsConfigGetBwRate value (some v) m=(some v,rate) := by
  have hsplit : v.takeWhile Char.isDigit++v.dropWhile Char.isDigit=v :=
    List.takeWhile_append_dropWhile
  have hdigits : ∀ c∈v.takeWhile Char.isDigit,Char.isDigit c=true :=
    fun c hc => List.mem_takeWhile_imp hc
  cases hr : v.dropWhile Char.isDigit with
  | nil =>
    rw [hr,List.append_nil] at hsplit
    refine .inr ⟨(Int64.ofNat (min (digitsValue v) (2^63-1))*1).toInt,fun value m => ?_⟩
    simp only [optionsConfigGetBwRate,hr,hsplit,scanRate,if_neg hne]
  | cons unit rest =>
    rw [hr] at hsplit
    cases rest with
    | cons _ _ =>
      refine .inl fun value m => ?_
      simp only [optionsConfigGetBwRate,hr]
    | nil =>
      have hu : unit∉"kKmMgGbB".toList := fun hu => h ⟨_,unit,hdigits,hu,hsplit.symm⟩
      refine .inl fun value m => ?_
      simp only [optionsConfigGetBwRate,hr,unitFactor_none hu]

/-- The text before the first slash. -/
def slashCut (v : CString) : CString :=
  match splitSlash v with
  | none => v
  | some (net,_) => net

/-- A text without a slash is not split. -/
theorem splitSlash_none (h : '/'∉v) : splitSlash v=none := by
  induction v with
  | nil => rfl
  | cons c cs ih =>
    rw [List.mem_cons,not_or] at h
    simp [splitSlash,Ne.symm h.1,ih h.2]

/-- A text with a slash is split into shorter texts. -/
theorem splitSlash_some (h : '/'∈v) :
    ∃ net mask,splitSlash v=some (net,mask) ∧ net.length<v.length := by
  induction v with
  | nil => cases h
  | cons c cs ih =>
    by_cases hc : c= '/'
    · exact ⟨[],cs,by simp [splitSlash,hc],by simp⟩
    · have hcs : '/'∈cs := by simpa [Ne.symm hc] using h
      obtain ⟨net,mask,hs,hl⟩ := ih hcs
      exact ⟨c::net,mask,by simp [splitSlash,hc,hs],by simpa using hl⟩

/-- Exactly the texts without a slash stay as they are. -/
theorem slashCut_eq_iff : slashCut v=v ↔ '/'∉v := by
  constructor
  · intro h hm
    obtain ⟨net,mask,hs,hl⟩ := splitSlash_some hm
    rw [slashCut,hs] at h
    exact Nat.lt_irrefl _ (h ▸ hl)
  · intro h
    rw [slashCut,splitSlash_none h]

/-- What the IPv4 reader leaves of the text. -/
theorem getNetFilter_text (inetAton : CString→Option AddrHash.InAddr) (str : Option CString)
    (o : OptionsT) : (optionsConfigGetNetFilter inetAton str o).2.1=str.map slashCut := by
  cases str with
  | none => rfl
  | some v =>
    unfold optionsConfigGetNetFilter slashCut
    dsimp only [Option.map_some]
    cases splitSlash v with
    | none => rfl
    | some parts =>
      dsimp only
      split
      · rfl
      · split
        · rfl
        · split <;> rfl

/-- What the IPv6 reader leaves of the text. -/
theorem getNetFilter6_text (inetPton : CString→Option AddrHash.In6Addr) (str : Option CString)
    (o : OptionsT) : (optionsConfigGetNetFilter6 inetPton str o).2.1=str.map slashCut := by
  cases str with
  | none => rfl
  | some v =>
    unfold optionsConfigGetNetFilter6 slashCut
    dsimp only [Option.map_some]
    cases splitSlash v with
    | none => rfl
    | some parts =>
      dsimp only
      split
      · rfl
      · split
        · rfl
        · split <;> rfl

/-- Without a slash the IPv4 filter is turned off. -/
theorem getNetFilter_settled (inetAton : CString→Option AddrHash.InAddr) {str : Option CString}
    (h : ∀ v∈str, '/'∉v) (o : OptionsT) : (optionsConfigGetNetFilter inetAton str o).2.2=
      {o with netfilter := if str.isSome then false else o.netfilter} := by
  cases str with
  | none => rfl
  | some v =>
    have hs := splitSlash_none (h v rfl)
    simp only [optionsConfigGetNetFilter,hs]
    rfl

/-- Without a slash the IPv6 filter is turned off. -/
theorem getNetFilter6_settled (inetPton : CString→Option AddrHash.In6Addr) {str : Option CString}
    (h : ∀ v∈str, '/'∉v) (o : OptionsT) : (optionsConfigGetNetFilter6 inetPton str o).2.2=
      {o with netfilter6 := if str.isSome then false else o.netfilter6} := by
  cases str with
  | none => rfl
  | some v =>
    have hs := splitSlash_none (h v rfl)
    simp only [optionsConfigGetNetFilter6,hs]
    rfl

/-- A text that was written is read back. -/
theorem get_configWrite_self (config : StringMap) (d : List Char) {str : Option CString}
    (h : str.isSome=(configGetString config d).isSome) :
    configGetString (configWrite config d str) d=str := by
  cases str with
  | none =>
    rw [configWrite]
    exact Option.not_isSome_iff_eq_none.mp (by rw [←h]; decide)
  | some str =>
    obtain ⟨old,hold⟩ := Option.isSome_iff_exists.mp h.symm
    have hfind : find strcmp d config=some old := hold
    rw [configWrite,configGetString,find_replace_self,hfind]
    rfl

/-- Writing one directive leaves the texts of the others. -/
theorem get_configWrite_of_ne (config : StringMap) {d d' : List Char} (hne : d'≠d)
    (str : Option CString) :
    configGetString (configWrite config d str) d'=configGetString config d' := by
  cases str with
  | none => rfl
  | some str => exact find_replace_of_ne strcmp_eq_iff hne ..

/-- Writing a text that is there changes nothing. -/
theorem configWrite_get (config : StringMap) (d : List Char) :
    configWrite config d (configGetString config d)=config := by
  cases h : configGetString config d with
  | none => rfl
  | some str => exact replace_found h

/-- A rate is read from a text exactly when there is a text. -/
theorem getBwRate_isSome (value : Int64) (str : Option CString) (m : ℤ) :
    (optionsConfigGetBwRate value str m).1.isSome=str.isSome := by
  cases str with
  | none => rfl
  | some v =>
    unfold optionsConfigGetBwRate
    dsimp only
    split
    · rfl
    · split <;> rfl
    · rfl

/-- After a call the text of the maximal bandwidth is the one that reading it leaves. -/
theorem get_maxBandwidth (sys : System) (value : Int64) (p : Program) :
    ∃ m,configGetString (optionsMake sys value p).config "max-bandwidth".toList=
      (optionsConfigGetBwRate value (configGetString p.config "max-bandwidth".toList) m).1 := by
  refine ⟨(makeFlags sys p.config p.options).maxBandwidth,?_⟩
  simp only [optionsMake,makeNetFilters,makeRate]
  rw [get_configWrite_of_ne _ (by decide),get_configWrite_of_ne _ (by decide),
    get_configWrite_self _ _ (getBwRate_isSome ..)]

/-- After a call the text of the IPv4 net filter is cut at its slash. -/
theorem get_netFilter (sys : System) (value : Int64) (p : Program) :
    configGetString (optionsMake sys value p).config "net-filter".toList=
      (configGetString p.config "net-filter".toList).map slashCut := by
  simp only [optionsMake,makeNetFilters,makeRate,getNetFilter_text]
  rw [get_configWrite_of_ne _ (by decide),get_configWrite_self _ _ (Option.isSome_map ..),
    get_configWrite_of_ne _ (by decide)]

/-- After a call the text of the IPv6 net filter is cut at its slash. -/
theorem get_netFilter6 (sys : System) (value : Int64) (p : Program) :
    configGetString (optionsMake sys value p).config "net-filter6".toList=
      (configGetString p.config "net-filter6".toList).map slashCut := by
  simp only [optionsMake,makeNetFilters,makeRate,getNetFilter6_text]
  rw [get_configWrite_self _ _ (Option.isSome_map ..),get_configWrite_of_ne _ (by decide),
    get_configWrite_of_ne _ (by decide)]

/-- A call that changes no option and no text finds the texts settled. -/
theorem Idempotent.settled {sys : System} {p : Program} (h : Idempotent sys p) :
    Settled p.config := by
  have htext := h.texts 0
  refine ⟨fun v hv => ⟨?_,?_⟩,fun v hv => ?_,fun v hv => ?_⟩
  · -- an empty text leaves the rate to the uninitialised variable
    rintro rfl
    have hrate := congrArg (fun o => o.maxBandwidth) (h.options 0 1)
    have hv' : configGetString p.config "max-bandwidth".toList=some [] := hv
    rw [optionsMake_maxBandwidth,optionsMake_maxBandwidth,htext,hv'] at hrate
    exact absurd hrate (by simp [optionsConfigGetBwRate,scanRate])
  · intro hu
    obtain ⟨m,hm⟩ := get_maxBandwidth sys 0 p
    rw [htext,hv] at hm
    exact getBwRate_unit hu 0 m hm.symm
  · have hcut := htext "net-filter".toList
    rw [get_netFilter,hv] at hcut
    exact slashCut_eq_iff.mp (Option.some.inj hcut)
  · have hcut := htext "net-filter6".toList
    rw [get_netFilter6,hv] at hcut
    exact slashCut_eq_iff.mp (Option.some.inj hcut)

/-- The options that a call makes of settled texts, with a function for the rate. -/
def remake (sys : System) (config : StringMap) (rate : ℤ→ℤ) (o : AllOptions) : AllOptions :=
  let o := makeFlags sys config o
  let o := makeDisplay config {o with maxBandwidth := rate o.maxBandwidth}
  {o with
    netfilter :=
      if (configGetString config "net-filter".toList).isSome then false else o.netfilter
    netfilter6 :=
      if (configGetString config "net-filter6".toList).isSome then false else o.netfilter6}

/-- A settled maximal bandwidth stays and gives a rate that is found again. -/
theorem Settled.exists_rate {config : StringMap} (h : Settled config) :
    ∃ rate : ℤ→ℤ,(∀ m,rate (rate m)=rate m) ∧ ∀ value m,
      optionsConfigGetBwRate value (configGetString config "max-bandwidth".toList) m=
        (configGetString config "max-bandwidth".toList,rate m) := by
  cases hv : configGetString config "max-bandwidth".toList with
  | none => exact ⟨id,fun _ => rfl,fun _ _ => rfl⟩
  | some v =>
    obtain ⟨hne,hu⟩ := h.rate v hv
    rcases getBwRate_settled hne hu with hkeep|⟨rate,hrate⟩
    · exact ⟨id,fun _ => rfl,hkeep⟩
    · exact ⟨fun _ => rate,fun _ => rfl,hrate⟩

/-- A call on settled texts leaves the configuration alone. -/
theorem optionsMake_settled (sys : System) {p : Program} (h : Settled p.config) {rate : ℤ→ℤ}
    (hrate : ∀ value m,
      optionsConfigGetBwRate value (configGetString p.config "max-bandwidth".toList) m=
        (configGetString p.config "max-bandwidth".toList,rate m)) (value : Int64) :
    optionsMake sys value p=⟨p.config,remake sys p.config rate p.options⟩ := by
  have hnet {str : Option CString} (hs : ∀ v∈str, '/'∉v) : str.map slashCut=str := by
    cases str with
    | none => rfl
    | some v => rw [Option.map_some,slashCut_eq_iff.mpr (hs v rfl)]
  have hcut := hnet h.net
  have hcut6 := hnet h.net6
  simp only [optionsMake,makeRate,hrate,configWrite_get,makeNetFilters,getNetFilter_text,hcut,
    getNetFilter6_text,hcut6,getNetFilter_settled sys.inetAton h.net,
    getNetFilter6_settled sys.inetPton h.net6]
  rfl

/-- A flag that was read is read again. -/
theorem getBool_getBool (config : StringMap) (name : List Char) (value : Bool) :
    optionsConfigGetBool config name (optionsConfigGetBool config name value)=
      optionsConfigGetBool config name value := by
  unfold optionsConfigGetBool
  split <;> rfl

/-- Reading a choice twice gives what reading it once gives. -/
theorem getEnum_getEnum {α : Type} (config : StringMap) (name : List Char)
    (enumeration : List (List Char×α)) (result : α) :
    optionsConfigGetEnum config name enumeration
        (optionsConfigGetEnum config name enumeration result)=
      optionsConfigGetEnum config name enumeration result := by
  unfold optionsConfigGetEnum
  split
  · cases configGetEnum config name enumeration <;> rfl
  · rfl

/-- The promiscuous mode sets two flags. -/
theorem getPromiscuous_eq (config : StringMap) (o : AllOptions) :
    optionsConfigGetPromiscuous config o={o with
      promiscuous := optionsConfigGetBool config "promiscuous".toList o.promiscuous
      promiscuousButChoosy :=
        if configGetBool config "promiscuous".toList then false else o.promiscuousButChoosy} := by
  unfold optionsConfigGetPromiscuous optionsConfigGetBool
  cases hp : configGetString config "promiscuous".toList with
  | none =>
    have hb : configGetBool config "promiscuous".toList=false := by rw [configGetBool,hp]
    rw [hb]
    rfl
  | some v => cases configGetBool config "promiscuous".toList <;> rfl

/-- Made again from the same texts, the options are the same. -/
theorem remake_remake (sys : System) (config : StringMap) {rate : ℤ→ℤ}
    (hrate : ∀ m,rate (rate m)=rate m) (o : AllOptions) :
    remake sys config rate (remake sys config rate o)=remake sys config rate o := by
  have hoff (b b' : Bool) : (if b then false else if b then false else b')=
      if b then false else b' := by cases b <;> rfl
  simp only [remake,makeFlags,makeDisplay,getPromiscuous_eq,getBool_getBool,getEnum_getEnum,hrate,
    hoff]

/-- Settled texts make a second call change nothing. -/
theorem Settled.idempotent (sys : System) {p : Program} (h : Settled p.config) :
    Idempotent sys p := by
  obtain ⟨rate,hrr,hrate⟩ := h.exists_rate
  have hmake (value : Int64) :
      optionsMake sys value p=⟨p.config,remake sys p.config rate p.options⟩ :=
    optionsMake_settled sys h hrate value
  have hagain (value value' : Int64) : optionsMake sys value' (optionsMake sys value p)=
      ⟨p.config,remake sys p.config rate (remake sys p.config rate p.options)⟩ := by
    rw [hmake]
    exact optionsMake_settled sys (p:=⟨p.config,remake sys p.config rate p.options⟩) h hrate value'
  refine ⟨fun value value' => ?_,fun value d => ?_,fun value value' d => ?_⟩
  · rw [hagain,hmake,remake_remake sys p.config hrr]
  · rw [hmake]
  · rw [hagain,hmake]

/-- For every configuration and any options to start from, `options_make` is
idempotent exactly when the texts that its readers write into are settled. -/
theorem optionsMake_idempotent_iff (sys : System) (p : Program) :
    Idempotent sys p ↔ Settled p.config :=
  ⟨Idempotent.settled,Settled.idempotent sys⟩

/-- The configuration `max-bandwidth: 10M`. -/
def tenMegabits : StringMap := configSetString configInit "max-bandwidth".toList "10M".toList

/-- Ten megabits become ten bits in a second call. -/
theorem tenMegabits_not_idempotent :
    (optionsMake plainSystem 0 ⟨tenMegabits,allDefaults plainSystem⟩).options.maxBandwidth=10485760 ∧
      (optionsMake plainSystem 0 (optionsMake plainSystem 0
        ⟨tenMegabits,allDefaults plainSystem⟩)).options.maxBandwidth=10 ∧
      ¬Idempotent plainSystem ⟨tenMegabits,allDefaults plainSystem⟩ := by
  have hget : configGetString tenMegabits "max-bandwidth".toList=some "10M".toList := by decide
  have hfirst : (optionsMake plainSystem 0
      ⟨tenMegabits,allDefaults plainSystem⟩).options.maxBandwidth=10485760 := by
    rw [optionsMake_maxBandwidth,hget]
    decide
  refine ⟨hfirst,?_,fun h => ?_⟩
  · obtain ⟨m,hm⟩ := get_maxBandwidth plainSystem 0 ⟨tenMegabits,allDefaults plainSystem⟩
    rw [optionsMake_maxBandwidth,hm,hget]
    rfl
  · have hu : HasUnit "10M".toList := ⟨"10".toList, 'M',List.all_eq_true.mp (by decide),by decide,rfl⟩
    exact (h.settled.rate _ hget).2 hu

end IftopColor.OptionsTwice
