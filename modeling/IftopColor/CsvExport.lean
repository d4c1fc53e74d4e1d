import IftopColor.Csv
import IftopColor.Export

/-!
# The export in CSV

`export_print_csv` prints its header once and then one row for each line of the
screen, glued together with commas. The rows read back as the values of the
lines, under their column names, as long as no process name that is printed has
a comma, a quote or a line break in it: names are printed as they are.
-/

namespace IftopColor.CsvExport

open AddrHash Screen OptionsMake Export

/-- The header of `export_print_csv`. -/
def printHeader (showProcesses : Bool) : List Char :=
  ["timestamp,source,source_port,destination,destination_port,protocol,".toList,
    if showProcesses then "pid,process_name,".toList else [],
    "sent_2s,sent_10s,sent_40s,recv_2s,recv_10s,recv_40s,total_sent,total_recv\n".toList].flatten

/-- A conversion and the comma behind it. -/
def printCell (text : List Char) : List Char := text++[',']

/-- The body of the loop over the screen. -/
def printRow (ntop : Ntop) (timebuf : List Char) (showProcesses : Bool) (line : HostPairLine) :
    List Char :=
  let src := sprintAddr ntop line.ap.addressFamily line.ap.src6
  let dst := sprintAddr ntop line.ap.addressFamily line.ap.dst6
  [printCell timebuf,printCell src,printCell (printUnsigned line.ap.srcPort.toNat),printCell dst,
    printCell (printUnsigned line.ap.dstPort.toNat),printCell (protocolName line.ap.protocol),
    if showProcesses then
      printCell (printInt line.pid)++
        printCell (if line.processName=[] then [] else line.processName)
    else [],
    printCell (printFixed (line.sent 0)),printCell (printFixed (line.sent 1)),
    printCell (printFixed (line.sent 2)),printCell (printFixed (line.recv 0)),
    printCell (printFixed (line.recv 1)),printCell (printFixed (line.recv 2)),
    printCell (printUnsigned line.totalSent),printUnsigned line.totalRecv,['\n']].flatten

/-- `export_print_csv`: what it prints and `csv_header_printed` afterwards. -/
def exportPrintCsv (ntop : Ntop) (tm : Tm) (o : AllOptions) (u : Ui) (csvHeaderPrinted : Bool) :
    List Char×Bool :=
  let header := if csvHeaderPrinted then [] else printHeader o.showProcesses
  (header++(screenLines u).flatMap (printRow ntop (timestamp tm) o.showProcesses),true)

/-- What a call finds. -/
structure Call where
  /-- The time. -/
  tm : Tm
  /-- Options. -/
  options : AllOptions
  /-- The screen. -/
  ui : Ui

/-- What a sequence of calls prints. -/
def csvRun (ntop : Ntop) : Bool→List Call→List Char
  | _,[] => []
  | printed,call::calls =>
    let result := exportPrintCsv ntop call.tm call.options call.ui printed
    result.1++csvRun ntop result.2 calls

/-- A column: its name and what a line has in it. -/
structure Column where
  /-- Name in the header. -/
  name : List Char
  /-- The value of a line, as text. -/
  value : HostPairLine→List Char

/-- The columns for the process of a line. -/
def processColumns : List Column :=
  [⟨"pid".toList,fun line => printInt line.pid⟩,⟨"process_name".toList,HostPairLine.processName⟩]

/-- All columns, at some time. -/
def columns (ntop : Ntop) (time : List Char) (showProcesses : Bool) : List Column :=
  [⟨"timestamp".toList,fun _ => time⟩,
    ⟨"source".toList,fun line => ntop line.ap.addressFamily line.ap.src6⟩,
    ⟨"source_port".toList,fun line => printUnsigned line.ap.srcPort.toNat⟩,
    ⟨"destination".toList,fun line => ntop line.ap.addressFamily line.ap.dst6⟩,
    ⟨"destination_port".toList,fun line => printUnsigned line.ap.dstPort.toNat⟩,
    ⟨"protocol".toList,fun line => protocolName line.ap.protocol⟩]++
  (if showProcesses then processColumns else [])++
  [⟨"sent_2s".toList,fun line => printFixed (line.sent 0)⟩,
    ⟨"sent_10s".toList,fun line => printFixed (line.sent 1)⟩,
    ⟨"sent_40s".toList,fun line => printFixed (line.sent 2)⟩,
    ⟨"recv_2s".toList,fun line => printFixed (line.recv 0)⟩,
    ⟨"recv_10s".toList,fun line => printFixed (line.recv 1)⟩,
    ⟨"recv_40s".toList,fun line => printFixed (line.recv 2)⟩,
    ⟨"total_sent".toList,fun line => printUnsigned line.totalSent⟩,
    ⟨"total_recv".toList,fun line => printUnsigned line.totalRecv⟩]

/-- The record of the column names. -/
def headerRecord (ntop : Ntop) (showProcesses : Bool) : Csv.Record :=
  (columns ntop [] showProcesses).map Column.name

/-- The record of a line. -/
def lineRecord (ntop : Ntop) (time : List Char) (showProcesses : Bool) (line : HostPairLine) :
    Csv.Record :=
  (columns ntop time showProcesses).map fun column => column.value line

/-- The records of the lines that the calls list. -/
def lineRecords (ntop : Ntop) (showProcesses : Bool) (calls : List Call) : List Csv.Record :=
  calls.flatMap fun call =>
    (screenLines call.ui).map (lineRecord ntop (timestamp call.tm) showProcesses)

/-- The whole table. -/
def table (ntop : Ntop) (showProcesses : Bool) (calls : List Call) : List Csv.Record :=
  headerRecord ntop showProcesses::lineRecords ntop showProcesses calls

variable {ntop : Ntop} {showProcesses : Bool}

/-- The names of the columns do not depend on the lines. -/
theorem headerRecord_eq (ntop : Ntop) (showProcesses : Bool) :
    headerRecord ntop showProcesses=headerRecord (fun _ _ => []) showProcesses := by
  cases showProcesses <;> rfl

set_option maxRecDepth 4000 in
/-- The header is printed as the record of the names of the columns. -/
theorem printHeader_eq (ntop : Ntop) (showProcesses : Bool) :
    printHeader showProcesses=Csv.writeRecord (headerRecord ntop showProcesses) := by
  rw [headerRecord_eq]
  cases showProcesses <;> decide

/-- A printed row is a written record. -/
theorem printRow_eq (ntop : Ntop) (time : List Char) (showProcesses : Bool) (line : HostPairLine) :
    printRow ntop time showProcesses line=
      Csv.writeRecord (lineRecord ntop time showProcesses line) := by
  have hname : (if line.processName=[] then [] else line.processName)=line.processName := by
    split
    · next h => exact h.symm
    · rfl
  cases showProcesses <;>
    simp [printRow,lineRecord,columns,processColumns,Csv.writeRecord,printCell,sprintAddr,hname]

/-- The header is printed once, and then the rows. -/
theorem csvRun_eq (printed : Bool) (calls : List Call)
    (ho : ∀ call∈calls,call.options.showProcesses=showProcesses) :
    csvRun ntop printed calls=
      Csv.write ((if printed ∨ calls=[] then [] else [headerRecord ntop showProcesses])++
        lineRecords ntop showProcesses calls) := by
  induction calls generalizing printed with
  | nil => simp [csvRun,lineRecords,Csv.write]
  | cons call calls ih =>
    obtain ⟨hc,hcs⟩ := List.forall_mem_cons.mp ho
    have hrows : (screenLines call.ui).flatMap (printRow ntop (timestamp call.tm) showProcesses)=
        ((screenLines call.ui).map (lineRecord ntop (timestamp call.tm) showProcesses)).flatMap
          Csv.writeRecord := by
      rw [List.flatMap_map]
      exact List.flatMap_congr fun line _ => printRow_eq ..
    have hi := ih true hcs
    simp only [true_or,if_true,List.nil_append] at hi
    simp only [csvRun,exportPrintCsv,hc]
    rw [hi,hrows]
    cases printed with
    | true => simp [lineRecords,Csv.write]
    | false => simp [lineRecords,Csv.write,printHeader_eq ntop showProcesses]

/-- Characters of a class without commas, quotes and line breaks. -/
theorem clean_of_all {p : Char→Bool} (hp : (",\n\r\"".toList.all fun c => !p c)=true)
    {text : List Char} (h : ∀ c∈text,p c=true) : Csv.Clean text := by
  intro c hc hm
  have hn := List.all_eq_true.mp hp c hm
  rw [h c hc] at hn
  cases hn

/-- A numeral has no character that CSV gives a meaning to. -/
theorem printUnsigned_clean (n : ℕ) : Csv.Clean (printUnsigned n) :=
  clean_of_all (p:=Char.isDigit) (by decide) fun _ hc =>
    Nat.isDigit_of_mem_toDigits (by omega) (by omega) hc

/-- A sign in front of a clean text leaves it clean. -/
theorem minus_clean {text : List Char} (h : Csv.Clean text) : Csv.Clean ('-'::text) :=
  List.forall_mem_cons.mpr ⟨by decide,h⟩

/-- An integer is written in clean characters. -/
theorem printInt_clean (n : ℤ) : Csv.Clean (printInt n) := by
  unfold printInt
  split
  · exact minus_clean (printUnsigned_clean _)
  · exact printUnsigned_clean _

/-- A rate is written in clean characters. -/
theorem printFixed_clean (q : ℚ) : Csv.Clean (printFixed q) := by
  unfold printFixed
  split
  · exact minus_clean (printUnsigned_clean _)
  · exact printUnsigned_clean _

/-- A time is written in clean characters. -/
theorem timestamp_clean (tm : Tm) : Csv.Clean (timestamp tm) := by
  have htwo (n : ℕ) : Csv.Clean (twoDigits n) := by
    unfold twoDigits
    split
    · exact List.forall_mem_cons.mpr ⟨by decide,printUnsigned_clean _⟩
    · exact printUnsigned_clean _
  have hone {c : Char} (hc : c∉",\n\r\"".toList) : Csv.Clean [c] :=
    List.forall_mem_singleton.mpr hc
  unfold Csv.Clean at htwo hone ⊢
  simp only [timestamp,List.flatten_cons,List.flatten_nil,List.forall_mem_append]
  exact ⟨printInt_clean _,hone (by decide),htwo _,hone (by decide),htwo _,hone (by decide),htwo _,
    hone (by decide),htwo _,hone (by decide),htwo _,hone (by decide),List.forall_mem_nil _⟩

/-- The name of a protocol has clean characters. -/
theorem protocolName_clean (proto : UInt16) : Csv.Clean (protocolName proto) := by
  have hall {text : List Char} (h : (text.all Char.isAlphanum)=true) : Csv.Clean text :=
    clean_of_all (p:=Char.isAlphanum) (by decide) (List.all_eq_true.mp h)
  unfold protocolName
  split_ifs <;> exact hall (by decide)

/-- The address of a line that has a family is written in clean characters. -/
theorem ntop_clean (hn : AddressTexts ntop) {line : HostPairLine}
    (hl : line.ap.addressFamily= .inet ∨ line.ap.addressFamily= .inet6) (addr : In6Addr) :
    Csv.Clean (ntop line.ap.addressFamily addr) :=
  clean_of_all (p:=isAddressChar) (by decide) (hn _ hl addr)

/-- The fields of a line are clean but for the name of its process. -/
theorem lineRecord_clean (hn : AddressTexts ntop) (tm : Tm) {line : HostPairLine}
    (hl : line.ap.addressFamily= .inet ∨ line.ap.addressFamily= .inet6) :
    (∀ f∈lineRecord ntop (timestamp tm) showProcesses line,Csv.Clean f) ↔
      (showProcesses=false ∨ Csv.Clean line.processName) := by
  have hprocess : (∀ f∈(if showProcesses then processColumns else []).map
      fun column => column.value line,Csv.Clean f) ↔
      (showProcesses=false ∨ Csv.Clean line.processName) := by
    cases showProcesses with
    | false => simp
    | true =>
      simp only [if_true,processColumns,List.map_cons,List.map_nil,List.forall_mem_cons]
      simp [printInt_clean line.pid]
  rw [←hprocess,lineRecord,columns,List.map_append,List.map_append]
  simp only [List.forall_mem_append,List.map_cons,List.map_nil,List.forall_mem_cons]
  simp only [timestamp_clean,ntop_clean hn hl,printUnsigned_clean,protocolName_clean,
    printFixed_clean,true_and,List.not_mem_nil,false_implies,implies_true,and_true]

/-- The names of the columns are clean. -/
theorem headerRecord_clean (ntop : Ntop) (showProcesses : Bool) :
    ∀ f∈headerRecord ntop showProcesses,Csv.Clean f := by
  have hall {f : List Char} (h : (f.all fun c => c.isAlphanum || c= '_')=true) : Csv.Clean f :=
    clean_of_all (p:=fun c => c.isAlphanum || c= '_') (by decide) (List.all_eq_true.mp h)
  have hnames : ((headerRecord (fun _ _ => []) showProcesses).all fun f =>
      f.all fun c => c.isAlphanum || c= '_')=true := by
    cases showProcesses <;> decide
  rw [headerRecord_eq]
  exact fun f hf => hall (List.all_eq_true.mp hnames f hf)

/-- The text is one table: the names of the columns, and for every line that was
listed, in order, its values under these names. -/
structure ReadsBack (ntop : Ntop) (showProcesses : Bool) (calls : List Call) (text : List Char) :
    Prop where
  /-- What a reader finds. -/
  decoded : Csv.decode text=some (table ntop showProcesses calls)
  /-- Every record has as many fields as the header. -/
  width : ∀ r∈lineRecords ntop showProcesses calls,r.length=(headerRecord ntop showProcesses).length

/-- Every record has a field for each column. -/
theorem lineRecords_length {calls : List Call} {r : Csv.Record}
    (h : r∈lineRecords ntop showProcesses calls) :
    r.length=(headerRecord ntop showProcesses).length := by
  obtain ⟨call,-,hr⟩ := List.mem_flatMap.mp h
  obtain ⟨line,-,rfl⟩ := List.mem_map.mp hr
  cases showProcesses <;> rfl

/-- The table has at least one column. -/
theorem headerRecord_pos (ntop : Ntop) (showProcesses : Bool) :
    0<(headerRecord ntop showProcesses).length := by
  cases showProcesses <;> exact Nat.succ_pos _

/-- When all fields of a table are clean. -/
theorem table_clean_iff (hn : AddressTexts ntop) {calls : List Call}
    (hl : ∀ call∈calls,∀ line∈screenLines call.ui,
      line.ap.addressFamily= .inet ∨ line.ap.addressFamily= .inet6) :
    (∀ r∈table ntop showProcesses calls,∀ f∈r,Csv.Clean f) ↔
      (showProcesses=false ∨
        ∀ call∈calls,∀ line∈screenLines call.ui,Csv.Clean line.processName) := by
  rw [table,List.forall_mem_cons,and_iff_right (headerRecord_clean ntop showProcesses)]
  constructor
  · intro h
    cases showProcesses with
    | false => exact .inl rfl
    | true =>
      refine .inr fun call hc line hm => ?_
      have hr := h _ (List.mem_flatMap.mpr ⟨call,hc,List.mem_map_of_mem hm⟩)
      exact ((lineRecord_clean hn call.tm (hl call hc line hm)).mp hr).resolve_left (by simp)
  · intro h r hr
    obtain ⟨call,hc,hr⟩ := List.mem_flatMap.mp hr
    obtain ⟨line,hm,rfl⟩ := List.mem_map.mp hr
    exact (lineRecord_clean hn call.tm (hl call hc line hm)).mpr
      (h.imp id fun h => h call hc line hm)

/-- For every sequence of calls with one setting for processes, the output reads as
one header and the values of the lines in order if and only if processes are not
shown or no listed process has a comma, a quote or a line break in its name. -/
theorem csv_reads_back_iff (hn : AddressTexts ntop) (showProcesses : Bool) (call : Call)
    (calls : List Call) (ho : ∀ c∈call::calls,c.options.showProcesses=showProcesses)
    (hl : ∀ c∈call::calls,∀ line∈screenLines c.ui,
      line.ap.addressFamily= .inet ∨ line.ap.addressFamily= .inet6) :
    ReadsBack ntop showProcesses (call::calls) (csvRun ntop false (call::calls)) ↔
      (showProcesses=false ∨
        ∀ c∈call::calls,∀ line∈screenLines c.ui,Csv.Clean line.processName) := by
  have hrun := @csvRun_eq ntop showProcesses false (call::calls) ho
  simp only [Bool.false_eq_true,reduceCtorEq,or_self,if_false,List.singleton_append] at hrun
  rw [←table] at hrun
  have hne : ∀ r∈table ntop showProcesses (call::calls),r≠[] := by
    have hpos := headerRecord_pos ntop showProcesses
    refine List.forall_mem_cons.mpr ⟨List.ne_nil_of_length_pos hpos,fun r hr => ?_⟩
    apply List.ne_nil_of_length_pos
    rw [lineRecords_length hr]
    exact hpos
  rw [←table_clean_iff hn hl,←Csv.decode_write_iff hne,hrun]
  exact ⟨fun h => h.decoded,fun h => ⟨h,fun r hr => lineRecords_length hr⟩⟩

/-- A screen with one flow of a process of some name. -/
def oneLine (name : List Char) : Ui :=
  {initUi with lineMem := fun _ => {quotedLine with processName := name},screenList := [0]}

/-- A call that shows processes. -/
def callFor (name : List Char) : Call :=
  ⟨⟨126,0,31,23,59,7⟩,{allDefaults plainSystem with showProcesses := true},oneLine name⟩

/-- Two calls with the same ordinary name. -/
theorem csv_reads_back_iff_two :
    ReadsBack plainNtop true [callFor "sshd".toList,callFor "sshd".toList]
      (csvRun plainNtop false [callFor "sshd".toList,callFor "sshd".toList]) := by
  refine (csv_reads_back_iff plainNtop_addressTexts true _ _ (by simp [callFor]) ?_).mpr (.inr ?_)
  · intro c hc line hm
    simp only [List.mem_cons,List.not_mem_nil,or_false,or_self] at hc
    subst hc
    rw [List.mem_singleton.mp hm]
    exact .inl rfl
  · intro c hc line hm
    simp only [List.mem_cons,List.not_mem_nil,or_false,or_self] at hc
    subst hc
    rw [List.mem_singleton.mp hm]
    exact clean_of_all (p:=Char.isAlphanum) (by decide) (List.all_eq_true.mp (by decide))

/-- A name with a comma makes a row with one field more than the header. -/
theorem csv_comma_shifts :
    ¬ReadsBack plainNtop true [callFor "a,b".toList]
        (csvRun plainNtop false [callFor "a,b".toList]) ∧
      ((Csv.decode (csvRun plainNtop false [callFor "a,b".toList])).map fun rs =>
        rs.map List.length)=some [16,17] := by
  have hwidths : ((Csv.decode (csvRun plainNtop false [callFor "a,b".toList])).map fun rs =>
      rs.map List.length)=some [16,17] := by decide +kernel
  refine ⟨fun h => ?_,hwidths⟩
  rw [h.decoded] at hwidths
  have htable : (table plainNtop true [callFor "a,b".toList]).map List.length=[16,16] := rfl
  rw [Option.map_some,htable] at hwidths
  exact absurd hwidths (by decide)

end IftopColor.CsvExport
