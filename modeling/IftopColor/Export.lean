import IftopColor.Json
import IftopColor.OptionsMake
import IftopColor.Screen
import Mathlib.Data.Rat.Floor

/-!
# The document of the export mode

`export_print_json` prints a document piece by piece, with commas by hand: before
every line of the screen but the first, and after every member but the last. Only
the names of the interface and of the processes go through an escape function. The
results say which document the text is, for every screen. The text is given by its
bytes, and `inet_ntop` is a parameter.
-/

namespace IftopColor.Export

open Json AddrHash Options NetFilter OptionsMake Screen

/-- `%u` and `%llu`. -/
def printUnsigned (n : ℕ) : List Char := Nat.toDigits 10 n

/-- `%d`. -/
def printInt (n : ℤ) : List Char :=
  if n<0 then '-'::printUnsigned n.natAbs else printUnsigned n.natAbs

/-- The nearest integer to a number that is not negative, with ties to even. -/
def roundEven (q : ℚ) : ℕ :=
  let n := ⌊q⌋₊
  if q-n<1/2 then n
  else if q-n>1/2 then n+1
  else if n%2=0 then n
  else n+1

/-- `%.0Lf`. -/
def printFixed (q : ℚ) : List Char :=
  if q<0 then '-'::printUnsigned (roundEven (-q)) else printUnsigned (roundEven q)

/-- `struct tm`. -/
structure Tm where
  /-- Years since 1900. -/
  tmYear : ℤ
  /-- Months since January. -/
  tmMon : ℕ
  /-- Day of the month. -/
  tmMday : ℕ
  /-- Hours. -/
  tmHour : ℕ
  /-- Minutes. -/
  tmMin : ℕ
  /-- Seconds. -/
  tmSec : ℕ

/-- A number with at least two digits. -/
def twoDigits (n : ℕ) : List Char := if n<10 then '0'::printUnsigned n else printUnsigned n

/-- `strftime` with `%Y-%m-%dT%H:%M:%SZ`. -/
def timestamp (tm : Tm) : List Char :=
  [printInt (tm.tmYear+1900),['-'],twoDigits (tm.tmMon+1),['-'],twoDigits tm.tmMday,['T'],
    twoDigits tm.tmHour,[':'],twoDigits tm.tmMin,[':'],twoDigits tm.tmSec,['Z']].flatten

/-- `inet_ntop` for a family and the bytes of an address. -/
abbrev Ntop := AddressFamily→In6Addr→List Char

/-- `protocol_name`. -/
def protocolName (proto : UInt16) : List Char :=
  if proto=6 then "TCP".toList
  else if proto=17 then "UDP".toList
  else if proto=1 then "ICMP".toList
  else if proto=58 then "ICMPv6".toList
  else "OTHER".toList

/-- `sprint_addr`, for a family that `inet_ntop` knows. -/
def sprintAddr (ntop : Ntop) (af : AddressFamily) (addr : In6Addr) : List Char := ntop af addr

/-- One round of the loop of `json_escape_string`. -/
def escapeChar (c : Char) : List Char :=
  if c= '"' then ['\\','"']
  else if c= '\\' then ['\\','\\']
  else [c]

/-- `json_escape_string`. -/
def jsonEscapeString (s : List Char) : List Char := '"'::(s.flatMap escapeChar++['"'])

/-- A text between quotes, as in `\"%s\"`. -/
def quoted (s : List Char) : List Char := '"'::(s++['"'])

/-- A member behind blanks, as in `"    \"key\": %d,\n"`, with the text of its value. -/
def printMember (indent : ℕ) (key text : List Char) : List Char :=
  List.replicate indent ' '++(quoted key++(": ".toList++(text++",\n".toList)))

/-- A member without the comma, as the last one of an object. -/
def printLast (indent : ℕ) (key text : List Char) : List Char :=
  List.replicate indent ' '++(quoted key++(": ".toList++(text++"\n".toList)))

/-- The members for the process of a line. -/
def printProcess (line : HostPairLine) : List Char :=
  [printMember 6 "pid".toList (printInt line.pid),
    printMember 6 "process_name".toList
      (jsonEscapeString (if line.processName=[] then [] else line.processName))].flatten

/-- The members for the rates of a line. -/
def printRates (indent : ℕ) (line : HostPairLine) : List Char :=
  [printMember indent "sent_2s".toList (printFixed (line.sent 0)),
    printMember indent "sent_10s".toList (printFixed (line.sent 1)),
    printMember indent "sent_40s".toList (printFixed (line.sent 2)),
    printMember indent "recv_2s".toList (printFixed (line.recv 0)),
    printMember indent "recv_10s".toList (printFixed (line.recv 1)),
    printMember indent "recv_40s".toList (printFixed (line.recv 2))].flatten

/-- The body of the loop over the screen, without the comma. -/
def printLine (ntop : Ntop) (o : AllOptions) (line : HostPairLine) : List Char :=
  let src := sprintAddr ntop line.ap.addressFamily line.ap.src6
  let dst := sprintAddr ntop line.ap.addressFamily line.ap.dst6
  ["    \x7b\n".toList,
    printMember 6 "source".toList (quoted src),
    printMember 6 "source_port".toList (printUnsigned line.ap.srcPort.toNat),
    printMember 6 "destination".toList (quoted dst),
    printMember 6 "destination_port".toList (printUnsigned line.ap.dstPort.toNat),
    printMember 6 "protocol".toList (quoted (protocolName line.ap.protocol)),
    if o.showProcesses then printProcess line else [],
    printRates 6 line,
    printMember 6 "total_sent".toList (printUnsigned line.totalSent),
    printLast 6 "total_recv".toList (printUnsigned line.totalRecv),
    "    \x7d".toList].flatten

/-- The loop over the screen; `first` is true until a line was printed. -/
def printLines (ntop : Ntop) (o : AllOptions) : Bool→List HostPairLine→List Char
  | _,[] => []
  | first,line::lines =>
    (if first then [] else ",\n".toList)++(printLine ntop o line++printLines ntop o false lines)

/-- The object of the totals. -/
def printTotals (u : Ui) : List Char :=
  ["\x7b\n".toList,
    printRates 4 u.totals,
    printMember 4 "cumulative_sent".toList (printUnsigned u.historyTotals.totalSent),
    printMember 4 "cumulative_recv".toList (printUnsigned u.historyTotals.totalRecv),
    printMember 4 "peak_sent".toList (printInt u.peaksent),
    printLast 4 "peak_recv".toList (printInt u.peakrecv),
    "  \x7d".toList].flatten

/-- The lines of `screen_list`. -/
def screenLines (u : Ui) : List HostPairLine := u.screenList.map u.lineMem

/-- `export_print_json`. -/
def exportPrintJson (ntop : Ntop) (tm : Tm) (o : AllOptions) (u : Ui) : List Char :=
  ["\x7b\n".toList,
    printMember 2 "timestamp".toList (quoted (timestamp tm)),
    printMember 2 "interface".toList (jsonEscapeString o.interface),
    printMember 2 "flows".toList
      ["[\n".toList,printLines ntop o true (screenLines u),"\n  ]".toList].flatten,
    printLast 2 "totals".toList (printTotals u),
    "\x7d\n".toList].flatten

/-- The members for the process of a line. -/
def processMembers (line : HostPairLine) : List (List Char×Value) :=
  [("pid".toList,.number line.pid),("process_name".toList,.string line.processName)]

/-- The object of a line. -/
def flowObject (ntop : Ntop) (o : AllOptions) (line : HostPairLine) : Value :=
  .object ([("source".toList,.string (ntop line.ap.addressFamily line.ap.src6)),
    ("source_port".toList,.number line.ap.srcPort.toNat),
    ("destination".toList,.string (ntop line.ap.addressFamily line.ap.dst6)),
    ("destination_port".toList,.number line.ap.dstPort.toNat),
    ("protocol".toList,.string (protocolName line.ap.protocol))]++
    ((if o.showProcesses then processMembers line else [])++
    [("sent_2s".toList,.number (line.sent 0)),("sent_10s".toList,.number (line.sent 1)),
    ("sent_40s".toList,.number (line.sent 2)),("recv_2s".toList,.number (line.recv 0)),
    ("recv_10s".toList,.number (line.recv 1)),("recv_40s".toList,.number (line.recv 2)),
    ("total_sent".toList,.number line.totalSent),("total_recv".toList,.number line.totalRecv)]))

/-- The object of the totals. -/
def totalsObject (u : Ui) : Value :=
  .object [("sent_2s".toList,.number (u.totals.sent 0)),("sent_10s".toList,.number (u.totals.sent 1)),
    ("sent_40s".toList,.number (u.totals.sent 2)),("recv_2s".toList,.number (u.totals.recv 0)),
    ("recv_10s".toList,.number (u.totals.recv 1)),("recv_40s".toList,.number (u.totals.recv 2)),
    ("cumulative_sent".toList,.number u.historyTotals.totalSent),
    ("cumulative_recv".toList,.number u.historyTotals.totalRecv),
    ("peak_sent".toList,.number u.peaksent),("peak_recv".toList,.number u.peakrecv)]

/-- The document that the export is meant to be. -/
def document (ntop : Ntop) (tm : Tm) (o : AllOptions) (u : Ui) : Value :=
  .object [("timestamp".toList,.string (timestamp tm)),("interface".toList,.string o.interface),
    ("flows".toList,.array ((screenLines u).map (flowObject ntop o))),
    ("totals".toList,totalsObject u)]

/-- A text without control characters. -/
abbrev Printable (s : List Char) : Prop := ∀ c∈s,0x20≤c.toNat

/-- A natural number. -/
abbrev IsNat (q : ℚ) : Prop := ∃ n : ℕ,q=n

/-- The text of a counter is read as its number. -/
theorem valueText_unsigned (n : ℕ) : ValueText (printUnsigned n) (.number n) := valueText_nat n

/-- The text of an integer is read as its number. -/
theorem valueText_int (n : ℤ) : ValueText (printInt n) (.number n) := by
  unfold printInt
  split
  · rename_i hn
    obtain ⟨k,rfl⟩ : ∃ k : ℕ,n=-(k : ℤ) := ⟨n.natAbs,by omega⟩
    have htext := valueText_neg k
    simpa [printUnsigned] using htext
  · rename_i hn
    obtain ⟨k,rfl⟩ : ∃ k : ℕ,n=k := ⟨n.natAbs,by omega⟩
    have htext := valueText_nat k
    simpa [printUnsigned] using htext

/-- A natural number rounds to itself. -/
theorem roundEven_nat (n : ℕ) : roundEven n=n := by
  simp [roundEven]

/-- Rates that are rounded already are numbers. -/
theorem valueText_fixed {q : ℚ} (h : IsNat q) : ValueText (printFixed q) (.number q) := by
  obtain ⟨n,rfl⟩ := h
  have hn : ¬(n : ℚ)<0 := by simp
  rw [printFixed,if_neg hn,roundEven_nat]
  exact valueText_nat n

/-- A quoted text of plain characters is a string. -/
theorem valueText_plain {cs : List Char} (h : ∀ c∈cs,isPlain c) :
    ValueText ('"'::(cs++['"'])) (.string cs) :=
  .string (stringText_plain h)

/-- Escaping makes a string of every text without control characters. -/
theorem valueText_escape {cs : List Char} (h : Printable cs) :
    ValueText (jsonEscapeString cs) (.string cs) := by
  refine .string (.mk ?_)
  induction cs with
  | nil => exact .nil
  | cons c cs ih =>
    have hc : CharText (escapeChar c) c := by
      unfold escapeChar
      split
      · rename_i hq
        subst hq
        exact .escape rfl
      · rename_i hq
        split
        · rename_i hb
          subst hb
          exact .escape rfl
        · rename_i hb
          exact .plain (h c (List.mem_cons_self ..)) hq hb
    exact .cons hc (ih fun x hx => h x (List.mem_cons_of_mem _ hx))

/-- Hexadecimal digits are no control characters. -/
theorem hexValue_printable {c : Char} {v : ℕ} (h : hexValue c=some v) : 0x20≤c.toNat := by
  have hle {a : Char} (ha : a≤c) (h20 : 0x20≤a.toNat) : 0x20≤c.toNat :=
    h20.trans (UInt32.le_iff_toNat_le.mp ha)
  unfold hexValue at h
  split_ifs at h with hd hl hu
  · have h0 : '0'≤c := by
      have hd' : c.val≥48 ∧ c.val≤57 := by simpa [Char.isDigit] using hd
      exact hd'.1
    exact hle h0 (by decide)
  · exact hle hl.1 (by decide)
  · exact hle hu.1 (by decide)

/-- All digits of a hexadecimal number are printable. -/
theorem hexNumber_printable {ds : List Char} {n : ℕ} (h : hexNumber ds=some n) : Printable ds := by
  have hall {ds : List Char} {vs : List ℕ} (h : ds.mapM hexValue=some vs) : Printable ds := by
    induction ds generalizing vs with
    | nil => simp [Printable]
    | cons d ds ih =>
      simp only [List.mapM_cons,Option.bind_eq_bind,Option.bind_eq_some_iff] at h
      obtain ⟨v,hv,us,hus,-⟩ := h
      intro c hc
      rcases List.mem_cons.mp hc with rfl|hc
      · exact hexValue_printable hv
      · exact ih hus c hc
  unfold hexNumber at h
  split_ifs at h
  obtain ⟨vs,hvs,-⟩ := Option.map_eq_some_iff.mp h
  exact hall hvs

/-- What stands for a character between quotes has no control characters. -/
theorem charText_printable {t : List Char} {c : Char} (h : CharText t c) : Printable t := by
  have hslash : 0x20≤ '\\'.toNat := by decide
  have hu : 0x20≤ 'u'.toNat := by decide
  cases h with
  | plain hc hq hb => simpa [Printable] using hc
  | @escape e _ h =>
    have he : 0x20≤e.toNat := by
      unfold simpleEscape at h
      split_ifs at h with h1 h2 h3 h4 h5 h6
      · rcases h1 with rfl|rfl|rfl <;> decide
      all_goals
        subst e
        decide
    simp [Printable,he]
  | unicode h _ _ =>
    have hd := hexNumber_printable h
    simp only [Printable,List.mem_cons,forall_eq_or_imp]
    exact ⟨hslash,hu,hd⟩
  | pair hn _ hk _ =>
    have hd := hexNumber_printable hn
    have he := hexNumber_printable hk
    simp only [Printable,List.mem_cons,List.mem_append,or_imp,forall_and,forall_eq]
    exact ⟨hslash,hu,hd,hslash,hu,he⟩

/-- A string has no control characters between its quotes. -/
theorem charsText_printable {t cs : List Char} (h : CharsText t cs) : Printable t := by
  induction h with
  | nil => simp [Printable]
  | cons h _ ih =>
    intro c hc
    rcases List.mem_append.mp hc with hc|hc
    · exact charText_printable h c hc
    · exact ih c hc

/-- Every character of a text is found in the escaped text, plain or behind a backslash. -/
theorem mem_escape {s : List Char} {c : Char} (h : c∈s) : c∈s.flatMap escapeChar := by
  refine List.mem_flatMap.mpr ⟨c,h,?_⟩
  unfold escapeChar
  split_ifs with hq hb
  · simp [hq]
  · simp [hb]
  · simp

/-- Only texts without control characters are escaped to strings. -/
theorem stringText_printable {s cs : List Char} (h : StringText (jsonEscapeString s) cs) :
    Printable s := by
  intro c hc
  unfold jsonEscapeString at h
  generalize hw : '"'::(s.flatMap escapeChar++['"'])=w at h
  cases h with
  | mk h =>
    have he := List.append_cancel_right (List.cons.inj hw).2
    rw [←he] at h
    exact charsText_printable h c (mem_escape hc)

/-- `json_escape_string` writes a string of JSON, and one that stands for the
text, if and only if the text has no byte below 0x20. -/
theorem json_escape_iff (s : List Char) :
    StringText (jsonEscapeString s) s ∧ decode (jsonEscapeString s)=some (.string s) ↔
      Printable s := by
  constructor
  · rintro ⟨ht,-⟩
    exact stringText_printable ht
  · intro h
    have hv := valueText_escape h
    refine ⟨?_,?_⟩
    · cases hv with
      | string h => exact h
    · have hd := ElementText.mk (a:=[]) (b:=[]) (List.forall_mem_nil _) hv (List.forall_mem_nil _)
      rw [List.nil_append,List.append_nil] at hd
      exact decode_document hd

/-- A process name with a line break is written as it is. -/
theorem json_escape_newline :
    jsonEscapeString "a\nb".toList="\"a\nb\"".toList ∧
      ¬StringText (jsonEscapeString "a\nb".toList) "a\nb".toList := by
  refine ⟨by decide,fun ht => ?_⟩
  have hn := stringText_printable ht '\n' (by decide)
  exact absurd hn (by decide)

/-- A member as it is printed: its name, the text of its value, and the value. -/
structure Field where
  /-- Name. -/
  key : List Char
  /-- Text of the value. -/
  text : List Char
  /-- Value. -/
  value : Value

/-- The member of the object. -/
def Field.member (f : Field) : List Char×Value := (f.key,f.value)

/-- Name and text are what they should be. -/
structure Field.Valid (f : Field) : Prop where
  /-- The name needs no escapes. -/
  plain : ∀ c∈f.key,isPlain c
  /-- The text stands for the value. -/
  text : ValueText f.text f.value

/-- Members on lines of their own, with commas between them, and a tail. -/
def printFields (indent : ℕ) (tail : List Char) : List Field→List Char
  | [] => tail
  | [f] => printLast indent f.key f.text++tail
  | f::g::fs => printMember indent f.key f.text++printFields indent tail (g::fs)

/-- A member behind a line break and blanks. -/
theorem memberText_field {f : Field} (hf : f.Valid) (indent : ℕ) {tail : List Char} (ht : Ws tail) :
    MemberText ('\n'::(List.replicate indent ' '++(quoted f.key++(": ".toList++(f.text++tail)))))
      f.member := by
  have hlead : Ws ('\n'::List.replicate indent ' ') := by
    intro c hc
    rcases List.mem_cons.mp hc with rfl|hc
    · rfl
    · rw [List.eq_of_mem_replicate hc]
      rfl
  have hnil : Ws [] := List.forall_mem_nil _
  have hblank : Ws [' '] := List.all_eq_true.mp rfl
  exact .mk hlead (stringText_plain hf.plain) hnil (.mk hblank hf.text ht)

/-- Members on lines of their own are the members of an object. -/
theorem membersText_fields {tail : List Char} (ht : Ws tail) (indent : ℕ) {fs : List Field}
    (hne : fs≠[]) (hf : ∀ f∈fs,f.Valid) :
    MembersText ('\n'::printFields indent tail fs) (fs.map Field.member) := by
  induction fs with
  | nil => exact absurd rfl hne
  | cons f fs ih =>
    have hfirst := hf f (List.mem_cons_self ..)
    cases fs with
    | nil =>
      have hend : Ws ('\n'::tail) := List.forall_mem_cons.mpr ⟨rfl,ht⟩
      have h := MembersText.one (memberText_field hfirst indent hend)
      simpa [printFields,printLast] using h
    | cons g fs =>
      have hnil : Ws [] := List.forall_mem_nil _
      have hrest := ih (List.cons_ne_nil g fs) fun x hx => hf x (List.mem_cons_of_mem f hx)
      have h := MembersText.cons (memberText_field hfirst indent hnil) hrest
      simpa [printFields,printMember] using h

/-- Members on lines of their own between braces are an object. -/
theorem valueText_fields {tail : List Char} (ht : Ws tail) (indent : ℕ) {fs : List Field}
    (hne : fs≠[]) (hf : ∀ f∈fs,f.Valid) :
    ValueText ("\x7b\n".toList++(printFields indent tail fs++['\x7d']))
      (.object (fs.map Field.member)) :=
  .object (membersText_fields ht indent hne hf)

/-- The members for the process of a line. -/
def processFields (line : HostPairLine) : List Field :=
  [⟨"pid".toList,printInt line.pid,.number line.pid⟩,
    ⟨"process_name".toList,jsonEscapeString line.processName,.string line.processName⟩]

/-- The members for the rates. -/
def rateFields (line : HostPairLine) : List Field :=
  [⟨"sent_2s".toList,printFixed (line.sent 0),.number (line.sent 0)⟩,
    ⟨"sent_10s".toList,printFixed (line.sent 1),.number (line.sent 1)⟩,
    ⟨"sent_40s".toList,printFixed (line.sent 2),.number (line.sent 2)⟩,
    ⟨"recv_2s".toList,printFixed (line.recv 0),.number (line.recv 0)⟩,
    ⟨"recv_10s".toList,printFixed (line.recv 1),.number (line.recv 1)⟩,
    ⟨"recv_40s".toList,printFixed (line.recv 2),.number (line.recv 2)⟩]

/-- The members of a line. -/
def flowFields (ntop : Ntop) (o : AllOptions) (line : HostPairLine) : List Field :=
  let src := ntop line.ap.addressFamily line.ap.src6
  let dst := ntop line.ap.addressFamily line.ap.dst6
  let name := protocolName line.ap.protocol
  [⟨"source".toList,quoted src,.string src⟩,
    ⟨"source_port".toList,printUnsigned line.ap.srcPort.toNat,.number line.ap.srcPort.toNat⟩,
    ⟨"destination".toList,quoted dst,.string dst⟩,
    ⟨"destination_port".toList,printUnsigned line.ap.dstPort.toNat,.number line.ap.dstPort.toNat⟩,
    ⟨"protocol".toList,quoted name,.string name⟩]++
    ((if o.showProcesses then processFields line else [])++(rateFields line++
    [⟨"total_sent".toList,printUnsigned line.totalSent,.number line.totalSent⟩,
    ⟨"total_recv".toList,printUnsigned line.totalRecv,.number line.totalRecv⟩]))

/-- The printed line is an object behind blanks. -/
theorem printLine_eq (ntop : Ntop) (o : AllOptions) (line : HostPairLine) :
    printLine ntop o line=List.replicate 4 ' '++
      ("\x7b\n".toList++(printFields 6 (List.replicate 4 ' ') (flowFields ntop o line)++['\x7d'])) := by
  have hname : (if line.processName=[] then [] else line.processName)=line.processName := by
    split
    · symm
      assumption
    · rfl
  have hopen : "    \x7b\n".toList=List.replicate 4 ' '++"\x7b\n".toList := rfl
  have hclose : "    \x7d".toList=List.replicate 4 ' '++['\x7d'] := rfl
  unfold printLine flowFields
  rw [hopen,hclose]
  by_cases hp : o.showProcesses
  · simp only [hp,if_true,printProcess,hname,sprintAddr,processFields,printRates,rateFields,
      List.flatten_cons,List.flatten_nil,List.append_nil,List.append_assoc,List.cons_append,
      List.nil_append,printFields]
  · simp only [hp,if_false,Bool.false_eq_true,sprintAddr,printRates,rateFields,
      List.flatten_cons,List.flatten_nil,List.append_nil,List.append_assoc,List.cons_append,
      List.nil_append,printFields]

/-- The members are those of the document. -/
theorem flowFields_member (ntop : Ntop) (o : AllOptions) (line : HostPairLine) :
    .object ((flowFields ntop o line).map Field.member)=flowObject ntop o line := by
  unfold flowFields flowObject
  by_cases hp : o.showProcesses
  · simp only [hp,if_true]
    rfl
  · simp only [hp]
    rfl

/-- A character of an address. -/
def isAddressChar (c : Char) : Bool := c.isDigit || "abcdefABCDEF.:".toList.contains c

/-- `inet_ntop` prints addresses of its two families with hexadecimal digits, dots
and colons. -/
def AddressTexts (ntop : Ntop) : Prop :=
  ∀ af,af=.inet ∨ af=.inet6→∀ addr,∀ c∈ntop af addr,isAddressChar c

/-- The rates of a line are natural numbers. -/
def IntegerRates (line : HostPairLine) : Prop := ∀ j,IsNat (line.sent j) ∧ IsNat (line.recv j)

/-- A line as the export expects it: an address family, a process name without
control characters, and rates that are rounded already. -/
structure Exportable (line : HostPairLine) : Prop where
  /-- IPv4 or IPv6. -/
  family : line.ap.addressFamily=.inet ∨ line.ap.addressFamily=.inet6
  /-- No control characters. -/
  name : Printable line.processName
  /-- Rounded rates. -/
  rates : IntegerRates line

/-- A digit stands for itself in a string. -/
theorem isPlain_of_isDigit {c : Char} (h : c.isDigit) : isPlain c := by
  have hlow : 48≤c.toNat := (Char.isDigit_iff_toNat.mp h).1
  simp only [isPlain,Bool.and_eq_true,decide_eq_true_eq]
  exact ⟨⟨by omega,ne_of_isDigit h (by decide)⟩,ne_of_isDigit h (by decide)⟩

/-- Characters of addresses need no escapes. -/
theorem isPlain_of_isAddressChar {c : Char} (h : isAddressChar c) : isPlain c := by
  simp only [isAddressChar,Bool.or_eq_true,List.contains_iff_mem] at h
  rcases h with h|h
  · exact isPlain_of_isDigit h
  · have hall : ∀ c∈"abcdefABCDEF.:".toList,isPlain c := List.all_eq_true.mp rfl
    exact hall c h

/-- A numeral stands for itself in a string. -/
theorem printUnsigned_plain (n : ℕ) : ∀ c∈printUnsigned n,isPlain c := fun _ hc =>
  isPlain_of_isDigit (Nat.isDigit_of_mem_toDigits (by omega) (by omega) hc)

/-- The text of a time stands for itself in a string. -/
theorem timestamp_plain (tm : Tm) : ∀ c∈timestamp tm,isPlain c := by
  have hyear (n : ℤ) : ∀ c∈printInt n,isPlain c := by
    unfold printInt
    split
    · exact List.forall_mem_cons.mpr ⟨rfl,printUnsigned_plain _⟩
    · exact printUnsigned_plain _
  have htwo (n : ℕ) : ∀ c∈twoDigits n,isPlain c := by
    unfold twoDigits
    split
    · exact List.forall_mem_cons.mpr ⟨rfl,printUnsigned_plain _⟩
    · exact printUnsigned_plain _
  have hone {c : Char} (hc : isPlain c) : ∀ x∈[c],isPlain x := by simpa using hc
  simp only [timestamp,List.flatten_cons,List.flatten_nil,List.forall_mem_append]
  exact ⟨hyear _,hone rfl,htwo _,hone rfl,htwo _,hone rfl,htwo _,hone rfl,htwo _,hone rfl,htwo _,
    hone rfl,List.forall_mem_nil _⟩

/-- Names of protocols need no escapes. -/
theorem protocolName_plain (proto : UInt16) : ∀ c∈protocolName proto,isPlain c := by
  unfold protocolName
  split_ifs <;> exact List.all_eq_true.mp rfl

/-- The rates are printed as they are. -/
theorem rateFields_valid {line : HostPairLine} (h : IntegerRates line) :
    ∀ f∈rateFields line,f.Valid := by
  unfold rateFields
  simp only [List.forall_mem_cons]
  refine ⟨⟨?_,valueText_fixed (h 0).1⟩,⟨?_,valueText_fixed (h 1).1⟩,⟨?_,valueText_fixed (h 2).1⟩,
    ⟨?_,valueText_fixed (h 0).2⟩,⟨?_,valueText_fixed (h 1).2⟩,⟨?_,valueText_fixed (h 2).2⟩,
    List.forall_mem_nil _⟩ <;> exact List.all_eq_true.mp rfl

variable {ntop : Ntop} {o : AllOptions} {line : HostPairLine}

/-- The members of a line are printed as they are. -/
theorem flowFields_valid (hn : AddressTexts ntop) (hl : Exportable line) :
    ∀ f∈flowFields ntop o line,f.Valid := by
  have haddr (addr : In6Addr) : ValueText (quoted (ntop line.ap.addressFamily addr))
      (.string (ntop line.ap.addressFamily addr)) :=
    valueText_plain fun c hc => isPlain_of_isAddressChar (hn _ hl.family addr c hc)
  have hprocess : ∀ f∈if o.showProcesses then processFields line else [],f.Valid := by
    split
    · simp only [processFields,List.forall_mem_cons]
      exact ⟨⟨List.all_eq_true.mp rfl,valueText_int _⟩,
        ⟨List.all_eq_true.mp rfl,valueText_escape hl.name⟩,List.forall_mem_nil _⟩
    · exact List.forall_mem_nil _
  simp only [flowFields,List.forall_mem_append,List.forall_mem_cons]
  exact ⟨⟨⟨List.all_eq_true.mp rfl,haddr _⟩,⟨List.all_eq_true.mp rfl,valueText_unsigned _⟩,
    ⟨List.all_eq_true.mp rfl,haddr _⟩,⟨List.all_eq_true.mp rfl,valueText_unsigned _⟩,
    ⟨List.all_eq_true.mp rfl,valueText_plain (protocolName_plain _)⟩,List.forall_mem_nil _⟩,
    hprocess,rateFields_valid hl.rates,⟨List.all_eq_true.mp rfl,valueText_unsigned _⟩,
    ⟨List.all_eq_true.mp rfl,valueText_unsigned _⟩,List.forall_mem_nil _⟩

/-- An indentation of blanks is white space. -/
theorem ws_replicate (n : ℕ) : Ws (List.replicate n ' ') := by
  intro c hc
  rw [List.eq_of_mem_replicate hc]
  rfl

/-- A printed line is the object of the line. -/
theorem elementText_printLine (hn : AddressTexts ntop) (hl : Exportable line) {tail : List Char}
    (ht : Ws tail) :
    ElementText ('\n'::(printLine ntop o line++tail)) (flowObject ntop o line) := by
  have hlead : Ws ('\n'::List.replicate 4 ' ') := List.forall_mem_cons.mpr ⟨rfl,ws_replicate 4⟩
  have hne : flowFields ntop o line≠[] := by simp [flowFields]
  have hvalue := valueText_fields (ws_replicate 4) 6 hne (flowFields_valid hn hl)
  rw [flowFields_member] at hvalue
  have h := ElementText.mk hlead hvalue ht
  rw [printLine_eq]
  simpa using h

/-- The loop prints the objects of the lines with commas between them. -/
theorem elementsText_printLines (hn : AddressTexts ntop) {tail : List Char} (ht : Ws tail)
    {lines : List HostPairLine} (hl : ∀ l∈line::lines,Exportable l) :
    ElementsText ('\n'::(printLine ntop o line++(printLines ntop o false lines++tail)))
      ((line::lines).map (flowObject ntop o)) := by
  induction lines generalizing line with
  | nil => exact .one (elementText_printLine hn (hl line (List.mem_cons_self ..)) ht)
  | cons next lines ih =>
    have hfirst := hl line (List.mem_cons_self ..)
    have hnil : Ws [] := List.forall_mem_nil _
    have hrest := ih fun l h => hl l (List.mem_cons_of_mem line h)
    have h := ElementsText.cons (elementText_printLine (o:=o) hn hfirst hnil) hrest
    simpa [printLines] using h

/-- The flows are an array with an object for each line, in the order of the list. -/
theorem valueText_flows (hn : AddressTexts ntop) {lines : List HostPairLine}
    (hl : ∀ l∈lines,Exportable l) :
    ValueText ["[\n".toList,printLines ntop o true lines,"\n  ]".toList].flatten
      (.array (lines.map (flowObject ntop o))) := by
  have htail : Ws "\n  ".toList := List.all_eq_true.mp rfl
  cases lines with
  | nil =>
    have hblank : Ws "\n\n  ".toList := List.all_eq_true.mp rfl
    exact .emptyArray hblank
  | cons line lines =>
    have h := ValueText.array (elementsText_printLines (o:=o) hn htail hl)
    simpa [printLines] using h

/-- The members of the totals. -/
def totalsFields (u : Ui) : List Field :=
  rateFields u.totals++
    [⟨"cumulative_sent".toList,printUnsigned u.historyTotals.totalSent,
      .number u.historyTotals.totalSent⟩,
    ⟨"cumulative_recv".toList,printUnsigned u.historyTotals.totalRecv,
      .number u.historyTotals.totalRecv⟩,
    ⟨"peak_sent".toList,printInt u.peaksent,.number u.peaksent⟩,
    ⟨"peak_recv".toList,printInt u.peakrecv,.number u.peakrecv⟩]

/-- The totals are printed as they are. -/
theorem totalsFields_valid (u : Ui) (h : IntegerRates u.totals) : ∀ f∈totalsFields u,f.Valid := by
  simp only [totalsFields,List.forall_mem_append,List.forall_mem_cons]
  exact ⟨rateFields_valid h,⟨List.all_eq_true.mp rfl,valueText_unsigned _⟩,
    ⟨List.all_eq_true.mp rfl,valueText_unsigned _⟩,⟨List.all_eq_true.mp rfl,valueText_int _⟩,
    ⟨List.all_eq_true.mp rfl,valueText_int _⟩,List.forall_mem_nil _⟩

/-- The text of the totals is read as an object with the three totals. -/
theorem valueText_totals (u : Ui) (h : IntegerRates u.totals) :
    ValueText (printTotals u) (totalsObject u) := by
  have hne : totalsFields u≠[] := by simp [totalsFields]
  have hvalue : ValueText _ (totalsObject u) :=
    valueText_fields (ws_replicate 2) 4 hne (totalsFields_valid u h)
  have hclose : "  \x7d".toList=List.replicate 2 ' '++['\x7d'] := rfl
  unfold printTotals
  rw [hclose]
  simpa only [printRates,totalsFields,rateFields,List.flatten_cons,List.flatten_nil,
    List.append_nil,List.append_assoc,List.cons_append,List.nil_append,printFields] using hvalue

/-- The members of the document. -/
def documentFields (ntop : Ntop) (tm : Tm) (o : AllOptions) (u : Ui) : List Field :=
  [⟨"timestamp".toList,quoted (timestamp tm),.string (timestamp tm)⟩,
    ⟨"interface".toList,jsonEscapeString o.interface,.string o.interface⟩,
    ⟨"flows".toList,["[\n".toList,printLines ntop o true (screenLines u),"\n  ]".toList].flatten,
      .array ((screenLines u).map (flowObject ntop o))⟩,
    ⟨"totals".toList,printTotals u,totalsObject u⟩]

/-- The text that is printed is a text of the document. -/
theorem documentText_export (hn : AddressTexts ntop) (tm : Tm) {u : Ui}
    (hi : Printable o.interface) (hl : ∀ line∈screenLines u,Exportable line)
    (ht : IntegerRates u.totals) :
    DocumentText (exportPrintJson ntop tm o u) (document ntop tm o u) := by
  have hvalid : ∀ f∈documentFields ntop tm o u,f.Valid := by
    simp only [documentFields,List.forall_mem_cons]
    exact ⟨⟨List.all_eq_true.mp rfl,valueText_plain (timestamp_plain tm)⟩,
      ⟨List.all_eq_true.mp rfl,valueText_escape hi⟩,
      ⟨List.all_eq_true.mp rfl,valueText_flows hn hl⟩,
      ⟨List.all_eq_true.mp rfl,valueText_totals u ht⟩,List.forall_mem_nil _⟩
  have hne : documentFields ntop tm o u≠[] := List.cons_ne_nil _ _
  have hnil : Ws [] := List.forall_mem_nil _
  have hend : Ws ['\n'] := List.all_eq_true.mp rfl
  have hvalue : ValueText _ (document ntop tm o u) := valueText_fields hnil 2 hne hvalid
  have hclose : "\x7d\n".toList=['\x7d']++['\n'] := rfl
  unfold exportPrintJson
  rw [hclose]
  simpa only [documentFields,List.flatten_cons,List.flatten_nil,List.append_nil,List.append_assoc,
    List.cons_append,List.nil_append,printFields] using ElementText.mk hnil hvalue hend

/-- For every screen, the export is one document in JSON, and decoding it gives the
object of every line in the order of the list and the values of the program. -/
theorem export_json_faithful (hn : AddressTexts ntop) (tm : Tm) (o : AllOptions) (u : Ui)
    (hi : Printable o.interface) (hl : ∀ line∈screenLines u,Exportable line)
    (ht : IntegerRates u.totals) :
    DocumentText (exportPrintJson ntop tm o u) (document ntop tm o u) ∧
      decode (exportPrintJson ntop tm o u)=some (document ntop tm o u) := by
  have hdoc := documentText_export hn tm hi hl ht
  exact ⟨hdoc,decode_document hdoc⟩

/-- Hexadecimal numerals have hexadecimal digits. -/
theorem toDigits_hex (n : ℕ) : ∀ c∈Nat.toDigits 16 n,isAddressChar c := by
  have hall : ∀ d<16,isAddressChar (Nat.digitChar d) := by decide
  induction n using Nat.strong_induction_on with
  | h n ih =>
    by_cases hlt : n<16
    · rw [Nat.toDigits_of_lt_base hlt]
      simpa using hall n hlt
    · rw [Nat.toDigits_of_base_le (by omega) (by omega)]
      refine List.forall_mem_append.mpr ⟨ih (n/16) (by omega),?_⟩
      simpa using hall (n%16) (by omega)

/-- `inet_ntop` for IPv4, and for IPv6 addresses that need no double colon. -/
def plainNtop : Ntop := fun af addr =>
  match af with
  | .unspec => []
  | .inet => List.intercalate ['.'] ((List.finRange 4).map fun j =>
    printUnsigned (inOfIn6 addr j).toNat)
  | .inet6 => List.intercalate [':'] ((List.finRange 8).map fun j : Fin 8 =>
    Nat.toDigits 16 ((addr ⟨2*j,by omega⟩).toNat*256+(addr ⟨2*j+1,by omega⟩).toNat))

/-- `plainNtop` writes the characters of addresses only. -/
theorem plainNtop_addressTexts : AddressTexts plainNtop := by
  have hjoin {d : Char} (hd : isAddressChar d) {parts : List (List Char)}
      (h : ∀ part∈parts,∀ c∈part,isAddressChar c) :
      ∀ c∈List.intercalate [d] parts,isAddressChar c := by
    induction parts with
    | nil => exact List.forall_mem_nil _
    | cons part parts ih =>
      have hpart := h part (List.mem_cons_self ..)
      have hrest := ih fun x hx => h x (List.mem_cons_of_mem part hx)
      cases parts with
      | nil =>
        rw [List.intercalate_singleton]
        exact hpart
      | cons next parts =>
        rw [List.intercalate_cons_cons]
        refine List.forall_mem_append.mpr ⟨List.forall_mem_append.mpr ⟨hpart,?_⟩,hrest⟩
        simpa using hd
  have hdigits (n : ℕ) : ∀ c∈printUnsigned n,isAddressChar c := fun c hc => by
    have := Nat.isDigit_of_mem_toDigits (by omega) (by omega) hc
    simp [isAddressChar,this]
  rintro af (rfl|rfl) addr
  · refine hjoin rfl fun part hp => ?_
    obtain ⟨j,-,rfl⟩ := List.mem_map.mp hp
    exact hdigits _
  · refine hjoin rfl fun part hp => ?_
    obtain ⟨j,-,rfl⟩ := List.mem_map.mp hp
    exact toDigits_hex _

/-- A TCP flow of a process whose name has a quote and a backslash. -/
def quotedLine : HostPairLine where
  ap := ⟨.inet,6,51515,in6OfIn ![10,0,0,1],443,in6OfIn ![192,0,2,7]⟩
  totalRecv := 1500
  totalSent := 90
  recv := fun _ => 6000
  sent := fun _ => 360
  cachedHostname := []
  pid := 42
  processName := "a\"b\\c".toList

/-- An IPv6 flow without a process. -/
def unownedLine : HostPairLine where
  ap := ⟨.inet6,17,5353,![0x20,1,0xd,0xb8,0,1,0,2,0,3,0,4,0,5,0,6],53,
    ![0x20,1,0xd,0xb8,0,1,0,2,0,3,0,4,0,5,0,7]⟩
  totalRecv := 0
  totalSent := 80
  recv := fun _ => 0
  sent := fun _ => 320
  cachedHostname := []
  pid := 0
  processName := []

/-- A screen with both flows. -/
def twoLines : Ui :=
  {initUi with
    lineMem := fun p => if p=0 then quotedLine else unownedLine
    screenList := [0,1]
    totals := {quotedLine with sent := fun _ => 680}
    peaksent := 680
    peakrecv := 6000}

/-- The export of a screen with two flows. -/
theorem export_json_faithful_two :
    let tm : Tm := ⟨126,0,31,23,59,7⟩
    let o : AllOptions := {allDefaults plainSystem with interface := "eth\"0".toList}
    DocumentText (exportPrintJson plainNtop tm o twoLines) (document plainNtop tm o twoLines) ∧
      decode (exportPrintJson plainNtop tm o twoLines)=some (document plainNtop tm o twoLines) :=
  have hprintable {s : List Char} (h : (s.all fun c => decide (0x20≤c.toNat))=true) :
      Printable s := by
    simpa using h
  have hnat (n : ℕ) : IsNat n := ⟨n,rfl⟩
  have hfirst : Exportable quotedLine :=
    ⟨.inl rfl,hprintable rfl,fun _ => ⟨hnat 360,hnat 6000⟩⟩
  have hsecond : Exportable unownedLine :=
    ⟨.inr rfl,hprintable rfl,fun _ => ⟨hnat 320,hnat 0⟩⟩
  have hlines : ∀ line∈screenLines twoLines,Exportable line :=
    List.forall_mem_cons.mpr ⟨hfirst,List.forall_mem_cons.mpr ⟨hsecond,List.forall_mem_nil _⟩⟩
  export_json_faithful plainNtop_addressTexts _ _ twoLines (hprintable rfl) hlines
    fun _ => ⟨hnat 680,hnat 6000⟩

end IftopColor.Export
