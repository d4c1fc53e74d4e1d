import Mathlib.Data.List.Induction
import Mathlib.Algebra.BigOperators.Group.List.Basic
import Mathlib.Tactic.Linarith

/-!
# Tables of comma-separated values

A reader of CSV texts, and the plainest writer: fields as they are, commas
between them and a line break after each record. A field may stand in quotes,
in which quotes are doubled; a quote elsewhere, and text after a closing quote,
are errors. Line breaks may have a carriage return. The reader gets the records
back from the plain writer exactly when no field has a character that needs
quotes: quotes only ever make a text longer than its fields.
-/

namespace IftopColor.Csv

/-- Fields of a record. -/
abbrev Record := List (List Char)

/-- What the reader has seen last. -/
inductive Mode where
  /-- A line break, or nothing yet. -/
  | first
  /-- A comma. -/
  | start
  /-- Text without quotes. -/
  | plain
  /-- An open quote. -/
  | quoted
  /-- A quote that closes, unless another one follows. -/
  | closed
  /-- A carriage return. -/
  | cr
  deriving DecidableEq

/-- What the reader does with a character. -/
inductive Action where
  /-- The character belongs to the field. -/
  | put (mode : Mode)
  /-- The character is not part of the field. -/
  | skip (mode : Mode)
  /-- The field is complete. -/
  | endField
  /-- The record is complete. -/
  | endRecord

/-- What a character is to the reader. -/
inductive Kind where
  | comma
  | newline
  | return
  | quote
  | other
  deriving DecidableEq

/-- The kind of a character. -/
def kind (c : Char) : Kind :=
  if c= ',' then .comma
  else if c= '\n' then .newline
  else if c= '\r' then .return
  else if c= '"' then .quote
  else .other

/-- What a character means. -/
def act : Mode→Kind→Option Action
  | .quoted,.quote => some (.skip .closed)
  | .quoted,_ => some (.put .quoted)
  | .closed,.quote => some (.put .quoted)
  | .closed,.other => none
  | .cr,.newline => some .endRecord
  | .cr,_ => none
  | .plain,.quote => none
  | _,.quote => some (.skip .quoted)
  | _,.comma => some .endField
  | _,.newline => some .endRecord
  | _,.return => some (.skip .cr)
  | _,.other => some (.put .plain)

/-- Read on, within a field of a record. The last record may lack its line break. -/
def read (mode : Mode) (field : List Char) (record : Record) : List Char→Option (List Record)
  | [] =>
    match mode with
    | .first => some []
    | .quoted => none
    | .cr => none
    | _ => some [record++[field]]
  | c::text =>
    match act mode (kind c) with
    | none => none
    | some (.put mode) => read mode (field++[c]) record text
    | some (.skip mode) => read mode field record text
    | some .endField => read .start [] (record++[field]) text
    | some .endRecord => (read .first [] [] text).map fun rs => (record++[field])::rs

/-- The records of a text. -/
def decode (text : List Char) : Option (List Record) := read .first [] [] text

/-- Fields with commas between them and a line break. -/
def writeRecord : Record→List Char
  | [] => ['\n']
  | [field] => field++['\n']
  | field::next::fields => field++ ','::writeRecord (next::fields)

/-- Records one after the other. -/
def write (rs : List Record) : List Char := rs.flatMap writeRecord

/-- No comma, line break, carriage return or quote. -/
def Clean (field : List Char) : Prop := ∀ c∈field,c∉",\n\r\"".toList

/-- Length of a record as it is written. -/
def recordSize (r : Record) : ℕ := (r.map fun field => field.length+1).sum

/-- Length of all records. -/
def size (rs : List Record) : ℕ := (rs.map recordSize).sum

variable {field : List Char} {record : Record} {rs : List Record}

/-- A character is of the remaining kind if it is no comma, line break or quote. -/
theorem kind_other {c : Char} : kind c= .other ↔ c∉",\n\r\"".toList := by
  unfold kind
  simp only [String.reduceToList,List.mem_cons,List.not_mem_nil,or_false,not_or]
  split_ifs <;> simp [*]

/-- A newline is the only character that ends a record. -/
theorem kind_newline {c : Char} : kind c= .newline ↔ c= '\n' := by
  unfold kind
  split_ifs with h1 h2 h3 h4
  · simp [h1]
  · simp [h2]
  · simp [h3]
  · simp [h4]
  · simp [h2]

/-- The reader expects text without quotes. -/
def Mode.Open (mode : Mode) : Prop := mode= .first ∨ mode= .start ∨ mode= .plain

/-- There, clean characters belong to the field, and commas and line breaks end it. -/
theorem act_open {mode : Mode} (hm : mode.Open) :
    act mode .other=some (.put .plain) ∧ act mode .comma=some .endField ∧
      act mode .newline=some .endRecord := by
  rcases hm with rfl|rfl|rfl <;> exact ⟨rfl,rfl,rfl⟩

/-- A clean field is read up to what ends it. -/
theorem read_field {mode : Mode} (hm : mode.Open) (h : Clean field) (seen : List Char)
    (record : Record) (text : List Char) :
    ∃ mode' : Mode,mode'.Open ∧
      read mode seen record (field++text)=read mode' (seen++field) record text := by
  induction field generalizing mode seen with
  | nil => exact ⟨mode,hm,by simp⟩
  | cons c cs ih =>
    obtain ⟨hc,hcs⟩ := List.forall_mem_cons.mp h
    obtain ⟨mode',hm',hr⟩ := ih (.inr (.inr rfl)) hcs (seen++[c])
    refine ⟨mode',hm',?_⟩
    rw [List.cons_append,read,kind_other.mpr hc,(act_open hm).1]
    dsimp only
    rw [hr,List.append_assoc]
    rfl

/-- A record of clean fields is read up to its line break. -/
theorem read_record {mode : Mode} (hm : mode.Open) (hne : record≠[]) (h : ∀ f∈record,Clean f)
    (seen : Record) (text : List Char) :
    read mode [] seen (writeRecord record++text)=
      (read .first [] [] text).map fun rs => (seen++record)::rs := by
  induction record generalizing mode seen with
  | nil => exact absurd rfl hne
  | cons f fs ih =>
    obtain ⟨hf,hfs⟩ := List.forall_mem_cons.mp h
    cases fs with
    | nil =>
      obtain ⟨mode',hm',hr⟩ := read_field hm hf [] seen ('\n'::text)
      rw [writeRecord,List.append_assoc,List.singleton_append,hr,read]
      have hk : kind '\n'= .newline := by decide
      rw [hk,(act_open hm').2.2]
      rfl
    | cons g gs =>
      obtain ⟨mode',hm',hr⟩ := read_field hm hf [] seen (','::(writeRecord (g::gs)++text))
      rw [writeRecord,List.append_assoc,List.cons_append,hr,read]
      have hk : kind ','= .comma := by decide
      rw [hk,(act_open hm').2.1]
      dsimp only
      rw [ih (.inr (.inl rfl)) (List.cons_ne_nil g gs) hfs,List.append_assoc]
      rfl

/-- Records of clean fields are read back. -/
theorem decode_write (hne : ∀ r∈rs,r≠[]) (h : ∀ r∈rs,∀ f∈r,Clean f) :
    decode (write rs)=some rs := by
  induction rs with
  | nil => rfl
  | cons r rs ih =>
    obtain ⟨hr,hrs⟩ := List.forall_mem_cons.mp hne
    obtain ⟨hc,hcs⟩ := List.forall_mem_cons.mp h
    have hi := ih hrs hcs
    unfold decode at hi ⊢
    rw [write,List.flatMap_cons,read_record (.inl rfl) hr hc [],←write,hi]
    rfl

/-- Characters that are put into a field. -/
theorem act_put {mode mode' : Mode} {k : Kind} (h : act mode k=some (.put mode')) :
    (mode'= .quoted ∧ ¬mode.Open) ∨ (mode'= .plain ∧ mode.Open ∧ k= .other) := by
  cases mode <;> cases k <;> cases h <;> simp [Mode.Open]

/-- Characters that are left out are quotes that open, quotes that close, and
carriage returns. -/
theorem act_skip {mode mode' : Mode} {k : Kind} (h : act mode k=some (.skip mode')) :
    k≠ .newline ∧ ((mode'= .quoted ∧ mode≠ .quoted) ∨ (mode'= .closed ∧ mode= .quoted) ∨
      (mode'= .cr ∧ mode≠ .quoted)) := by
  cases mode <;> cases k <;> cases h <;> simp

/-- A field ends at a comma and a record at a line break, outside quotes. -/
theorem act_end {mode : Mode} {k : Kind} :
    (act mode k=some .endField→mode≠ .quoted ∧ k≠ .newline) ∧
      (act mode k=some .endRecord→mode≠ .quoted) := by
  cases mode <;> cases k <;> simp [act]

/-- Characters still needed for quotes. -/
def Mode.cost (mode : Mode) : ℕ := if mode= .quoted then 1 else 0

/-- The text ends in a line break, or has just done so. -/
def Ends (mode : Mode) (text : List Char) : Prop :=
  (text=[]→mode= .first) ∧ ∀ c∈text.getLast?,c= '\n'

/-- A text that ends in a line break has a rest that does so too, but for the line break itself. -/
theorem Ends.tail {mode mode' : Mode} {c : Char} {text : List Char} (h : Ends mode (c::text))
    (hc : text=[]→c= '\n'→mode'= .first) : Ends mode' text := by
  cases text with
  | nil => exact ⟨fun _ => hc rfl (h.2 c rfl),by simp⟩
  | cons d text => exact ⟨by simp,fun x hx => h.2 x (by simpa using hx)⟩

/-- One more field makes a record longer by its characters and a separator. -/
theorem recordSize_append (record : Record) (field : List Char) :
    recordSize (record++[field])=recordSize record+(field.length+1) := by
  simp [recordSize]

/-- Records that are read are no longer than their text, and as long as it only if
no quotes were needed. -/
structure ReadSize (mode : Mode) (field : List Char) (record : Record) (text : List Char)
    (rs : List Record) : Prop where
  /-- The length of the records. -/
  le : size rs+mode.cost≤ recordSize record+field.length+text.length
  /-- What the length says about the fields. -/
  clean : mode.Open→size rs=recordSize record+field.length+text.length→(∀ f∈record,Clean f)→
    Clean field→∀ r∈rs,∀ f∈r,Clean f

variable {mode mode' : Mode} {c : Char} {text : List Char}

/-- A character that is put into the field counts. -/
theorem ReadSize.put (ha : act mode (kind c)=some (.put mode'))
    (h : ReadSize mode' (field++[c]) record text rs) :
    ReadSize mode field record (c::text) rs := by
  have hle := h.le
  have hclean := h.clean
  rw [List.length_append,List.length_singleton] at hle hclean
  obtain ⟨rfl,hm⟩|⟨rfl,hm,hk⟩ := act_put ha
  · have hcost : mode.cost≤1 := by
      unfold Mode.cost
      split <;> omega
    simp only [Mode.cost,if_true] at hle
    refine ⟨?_,fun ho => absurd ho hm⟩
    rw [List.length_cons]
    omega
  · have hcost : mode.cost=0 := by rcases hm with rfl|rfl|rfl <;> rfl
    constructor
    · rw [List.length_cons]
      omega
    · intro _ hsize hrec hfield
      rw [List.length_cons] at hsize
      refine hclean (.inr (.inr rfl)) (by omega) hrec ?_
      exact List.forall_mem_append.mpr ⟨hfield,by simpa using kind_other.mp hk⟩

/-- A character that is left out takes room: what it opens costs one more, and what it
closes was paid for. -/
theorem ReadSize.skip (ha : act mode (kind c)=some (.skip mode'))
    (h : ReadSize mode' field record text rs) : ReadSize mode field record (c::text) rs := by
  have hle := h.le
  constructor
  · rw [List.length_cons]
    obtain ⟨rfl,hm⟩|⟨rfl,rfl⟩|⟨rfl,hm⟩ := (act_skip ha).2
    · simp only [Mode.cost,if_true,if_neg hm] at hle ⊢
      omega
    · simp only [Mode.cost,if_true] at hle ⊢
      omega
    · simp only [Mode.cost,if_neg hm] at hle ⊢
      omega
  · intro ho hsize
    rw [List.length_cons] at hsize
    obtain ⟨rfl,hm⟩|⟨rfl,rfl⟩|⟨rfl,hm⟩ := (act_skip ha).2
    · simp only [Mode.cost,if_true] at hle
      omega
    · exact absurd ho (by simp [Mode.Open])
    · simp only [Mode.cost] at hle
      omega

/-- A field has room for what ends it. -/
theorem ReadSize.endField (ha : act mode (kind c)=some .endField)
    (h : ReadSize .start [] (record++[field]) text rs) :
    ReadSize mode field record (c::text) rs := by
  have hm := (act_end.1 ha).1
  have hle := h.le
  have hclean := h.clean
  rw [recordSize_append] at hle hclean
  simp only [List.length_nil] at hle hclean
  constructor
  · simp only [Mode.cost,if_neg hm,List.length_cons]
    omega
  · intro _ hsize hrec hfield
    rw [List.length_cons] at hsize
    refine hclean (.inr (.inl rfl)) (by omega) ?_ (List.forall_mem_nil _)
    exact List.forall_mem_append.mpr ⟨hrec,by simpa using hfield⟩

/-- Ending a record keeps the bound by the size of the text. -/
theorem ReadSize.endRecord (ha : act mode (kind c)=some .endRecord)
    (h : ReadSize .first [] [] text rs) :
    ReadSize mode field record (c::text) ((record++[field])::rs) := by
  have hle := h.le
  have hclean := h.clean
  have hsize : size ((record++[field])::rs)=recordSize record+(field.length+1)+size rs := by
    rw [size,List.map_cons,List.sum_cons,recordSize_append,size]
  have hnil : recordSize []=0 := rfl
  simp only [hnil,List.length_nil] at hle hclean
  constructor
  · rw [hsize]
    simp only [Mode.cost,if_neg (act_end.2 ha),List.length_cons]
    omega
  · intro _ hs hrec hfield
    rw [hsize,List.length_cons] at hs
    refine List.forall_mem_cons.mpr ⟨?_,?_⟩
    · exact List.forall_mem_append.mpr ⟨hrec,by simpa using hfield⟩
    · exact hclean (.inl rfl) (by omega) (List.forall_mem_nil _) (List.forall_mem_nil _)

/-- What is read from a text that ends in a line break is bounded by its size. -/
theorem read_size (h : read mode field record text=some rs) (he : Ends mode text) :
    ReadSize mode field record text rs := by
  induction text generalizing mode field record rs with
  | nil =>
    rw [he.1 rfl] at h ⊢
    cases h
    exact ⟨by simp [size,Mode.cost],by simp⟩
  | cons c text ih =>
    rw [read] at h
    cases ha : act mode (kind c) with
    | none => simp [ha] at h
    | some action =>
      cases action with
      | put mode' =>
        simp only [ha] at h
        have hend : Ends mode' text := he.tail fun ht hc => by
          obtain ⟨rfl,-⟩|⟨-,-,hk⟩ := act_put ha
          · rw [ht] at h
            cases h
          · rw [kind_newline.mpr hc] at hk
            cases hk
        exact (ih h hend).put ha
      | skip mode' =>
        simp only [ha] at h
        have hk := (act_skip ha).1
        exact (ih h (he.tail fun _ hc => absurd (kind_newline.mpr hc) hk)).skip ha
      | endField =>
        simp only [ha] at h
        have hk := (act_end.1 ha).2
        exact (ih h (he.tail fun _ hc => absurd (kind_newline.mpr hc) hk)).endField ha
      | endRecord =>
        simp only [ha] at h
        obtain ⟨rs',hr,rfl⟩ := Option.map_eq_some_iff.mp h
        exact (ih hr (he.tail fun _ _ => rfl)).endRecord ha

/-- A written record has the characters that its size counts. -/
theorem length_writeRecord (hne : record≠[]) : (writeRecord record).length=recordSize record := by
  induction record with
  | nil => exact absurd rfl hne
  | cons f fs ih =>
    cases fs with
    | nil => simp [writeRecord,recordSize]
    | cons g gs =>
      have hi := ih (List.cons_ne_nil g gs)
      simp only [writeRecord,List.length_append,List.length_cons,hi,recordSize,List.map_cons,
        List.sum_cons]
      omega

/-- A written table has the characters that its size counts. -/
theorem length_write (hne : ∀ r∈rs,r≠[]) : (write rs).length=size rs := by
  rw [write,List.length_flatMap,size]
  exact congrArg List.sum (List.map_congr_left fun r hr => length_writeRecord (hne r hr))

/-- A written record ends in a line break. -/
theorem writeRecord_getLast? (record : Record) : (writeRecord record).getLast?=some '\n' := by
  induction record with
  | nil => rfl
  | cons f fs ih =>
    cases fs with
    | nil => simp [writeRecord]
    | cons g gs =>
      rw [writeRecord,List.getLast?_append,List.getLast?_cons,ih]
      rfl

/-- A written table ends in a line break. -/
theorem write_ends (rs : List Record) : Ends .first (write rs) := by
  refine ⟨fun _ => rfl,?_⟩
  induction rs using List.reverseRecOn with
  | nil => simp [write]
  | append_singleton rs r ih =>
    have hw : write (rs++[r])=write rs++writeRecord r := by simp [write]
    rw [hw,List.getLast?_append,writeRecord_getLast?]
    simp

/-- Fields that are written as they are are read back exactly when none of them
needs quotes. -/
theorem decode_write_iff (hne : ∀ r∈rs,r≠[]) :
    decode (write rs)=some rs ↔ ∀ r∈rs,∀ f∈r,Clean f := by
  constructor
  · intro h
    have hsize : size rs=recordSize []+([] : List Char).length+(write rs).length := by
      rw [length_write hne]
      simp [recordSize]
    exact (read_size h (write_ends rs)).clean (.inl rfl) hsize (List.forall_mem_nil _)
      (List.forall_mem_nil _)
  · exact decode_write hne

end IftopColor.Csv
