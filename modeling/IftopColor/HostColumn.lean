import IftopColor.ScreenText
import IftopColor.ServHash

/-!
# Host and service in one column

Without the resolver the text of a host depends on its address, its port and the
table of services only. Address and service share the column: the service has the
end of it, as far as it fits, and the address what is left at the front.
-/

namespace IftopColor.HostColumn

open AddrHash Options OptionsMake Resolver Screen Export TextBuffer ServHash ScreenText

/-- A host and a service on a number of columns. -/
def column (width : ℕ) (host service : List Char) : List Char :=
  let left := min host.length (width-service.length)
  host.take left++(service.take (width-left)).rightpad (width-left) ' '

/-- The column is filled exactly, whatever the lengths of host and service. -/
theorem column_length (width : ℕ) (host service : List Char) :
    (column width host service).length=width := by
  simp only [column,List.length_append,List.length_take,List.length_rightpad]
  omega

/-- The end of an address gives way to the service. -/
example : column 10 "10.0.0.1".toList ":http".toList="10.0.:http".toList := rfl

/-- A text that is padded and cut is cut and padded. -/
theorem take_rightpad (text : List Char) (n : ℕ) (c : Char) :
    (text.rightpad n c).take n=(text.take n).rightpad n c := by
  simp only [List.rightpad,List.take_append,List.take_replicate,List.length_take]
  congr 2
  omega

/-- The characters of a text are in front of its padding. -/
theorem take_rightpad_of_le {text : List Char} {k : ℕ} (h : k≤text.length) (n : ℕ) (c : Char) :
    (text.rightpad n c).take k=text.take k := List.take_append_of_le_length h

/-- What is printed over the end of the name fills the column. -/
theorem hostText_eq_column (width : ℕ) (host service : List Char) :
    hostText width host service=column width host service := by
  rw [hostText,column,take_rightpad_of_le (Nat.min_le_left _ _),take_rightpad]

/-- A service that was cut before is wider than the column anyway. -/
theorem column_take {width n : ℕ} (hwidth : width≤n) (host service : List Char) :
    column width host (service.take n)=column width host service := by
  have hleft : width-(service.take n).length=width-service.length := by
    rw [List.length_take]
    omega
  rw [column,column,hleft,List.take_take,Nat.min_eq_left ((Nat.sub_le _ _).trans hwidth)]

/-- Addresses are printed from what `inet_ntop` gives, services from the table. -/
def tableEnv (inetNtop : Ntop) (t : ServTable) : TextEnv := ⟨inetNtop,servTableLookup t⟩

/-- Without the resolver, and whatever its arrays held before, `sprint_host` leaves a text that
has as many characters as the column: as much of the address as the service leaves room for,
and the service behind it, cut or padded to the end. -/
theorem sprintHost_column {inetNtop : Ntop} (hfit : NtopFits inetNtop) {o : AllOptions}
    (hdns : o.dnsresolution=false) (t : ServTable) (af : AddressFamily) (addr : In6Addr)
    (port protocol : UInt32) {maxlen : ℕ} (hm : maxlen≤255) (line hostname service : Buffer)
    (s : ResolverState) :
    let env := tableEnv inetNtop t
    ∃ buf text,
      sprintHost env o af addr port protocol maxlen line hostname service s=.ok (buf,s) ∧
      Holds hostnameLength buf text ∧ text.length=maxlen ∧
      text=column maxlen (hostLabel inetNtop af addr) (serviceLabel env o port protocol) := by
  intro env
  have hoff : o.dnsresolution=true→in6IsAddrUnspecified addr=true :=
    fun hd => absurd (hdns.symm.trans hd) Bool.false_ne_true
  obtain ⟨buf₁,h₁,hn⟩ := @printHostname_label env o addr hfit af hoff maxlen hostname s
  obtain ⟨buf₂,h₂,hv⟩ := printService_label env o port protocol service
  obtain ⟨buf,hs,hh⟩ := sprintHost_parts hm h₁ hn h₂ hv line
  rw [hostText_eq_column,column_take hm] at hh
  exact ⟨buf,_,hs,hh,column_length _ _ _,rfl⟩

/-- The options without names of hosts. -/
def numericOptions : AllOptions := {bareOptions with dnsresolution := false}

/-- A table with a name for port 80 of TCP. -/
def httpTable : ServTable :=
  servTableInsert blank 0 (servTableCreate blank) 80 6 "http".toList

/-- Ten columns for an address of eight characters and that service. -/
theorem sprintHost_column_ten :
    let env := tableEnv plainNtop httpTable
    ∃ buf text,
      sprintHost env numericOptions .inet (in6OfIn ![10,0,0,1]) 80 6 (10 : ℕ) (fun _ => 'x')
        (fun _ => 'x') (fun _ => 'x') resolverInitialise=.ok (buf,resolverInitialise) ∧
      Holds hostnameLength buf text ∧ text.length=10 ∧
      text=column 10 (hostLabel plainNtop .inet (in6OfIn ![10,0,0,1]))
        (serviceLabel env numericOptions 80 6) :=
  sprintHost_column plainNtop_fits rfl httpTable .inet (in6OfIn ![10,0,0,1]) 80 6 (by decide)
    (fun _ => 'x') (fun _ => 'x') (fun _ => 'x') resolverInitialise

end IftopColor.HostColumn
