import Mathlib.Data.List.MinMax
import Mathlib.Data.List.TakeWhile
import NgxWasm.Access.Connections
import NgxWasm.Access.Decision
import NgxWasm.Http.HeaderSet
import NgxWasm.Socket.HttpReader

/-!
# The host of a dispatch, checked and parsed (ngx_wasm_acl.c 270-336)

`ngx_wasm_acl_check_host` cuts the name out of the text of a filter, and
`ngx_wasm_socket_tcp_init` (ngx_wasm_socket_tcp.c 138-239) gives the same text to
`ngx_parse_url`. The parsers of addresses and of urls and the hash of the hosts are nginx's.
-/

namespace NgxWasm.Access.HostVerdict

set_option maxRecDepth 8192

open NgxWasm NgxWasm.Access.Check NgxWasm.Access.Connections
open NgxWasm.Access.Decision (cidrMatchList)
open NgxWasm.Http.Headers (ascii)
open NgxWasm.Lib.LongestMatch (Table listTable)
open NgxWasm.Http.HeaderSet (byte_forall)
open NgxWasm.Socket.HttpReader (strlow)

/-! ### Rules on names -/

/-- A directive `allow_host` or `deny_host`. -/
structure HostRule where
  host : Bytes
  type : Tag

/-- `*.` in front is a wildcard, `.*` at the end is one, and any other text is a name. -/
inductive Pattern where
  | exact (name : Bytes)
  | head (suffix : Bytes)
  | tail (start : Bytes)
  deriving DecidableEq

def pattern (host : Bytes) : Pattern :=
  match strlow host with
  | 42 :: 46 :: suffix => .head suffix
  | name => if [46, 42] <:+ name then .tail (name.take (name.length - 2)) else .exact name

def Pattern.isExact (name : Bytes) : Pattern → Bool
  | .exact n => n == name
  | _ => false

def Pattern.isHead (name : Bytes) : Pattern → Bool
  | .head suffix => decide (46 :: suffix <:+ name)
  | _ => false

def Pattern.isTail (name : Bytes) : Pattern → Bool
  | .tail start => decide (start ++ [46] <+: name)
  | _ => false

/-- The rule of the longest text among those of one kind. -/
def longestRule (rules : List HostRule) (kind : Pattern → Bool) : Option Tag :=
  ((rules.filter fun r => kind (pattern r.host)).argmax fun r => r.host.length).map HostRule.type

/-- An exact name comes before `*.` and that before `.*`. -/
def mostSpecific (rules : List HostRule) (name : Bytes) : Option Tag :=
  (longestRule rules (Pattern.isExact name)).or
    ((longestRule rules (Pattern.isHead name)).or (longestRule rules (Pattern.isTail name)))

/-! ### What nginx provides -/

/-- Of `ngx_url_t`: `host` and the address that needs no resolver. -/
structure Url where
  host : Bytes
  addr : Option Sockaddr
  deriving DecidableEq

/-- `dotted` is the address that a text of four numbers stands for. -/
structure Nginx where
  dotted : Bytes → Option InAddr
  inet6Addr : Bytes → Option (BitVec 128)
  hashKeyLc : Bytes → ℕ
  hashFindCombined : ℕ → Bytes → Option Tag
  parseUrl : Bytes → ℕ → Option Url

/-- `INADDR_NONE`. -/
def inaddrNone : InAddr := ⟨255, 255, 255, 255⟩

/-- `ngx_inet_addr`. -/
def inetAddr (ng : Nginx) (name : Bytes) : InAddr := (ng.dotted name).getD inaddrNone

/-- As `ngx_wasm_acl_check_host` uses them: `buf` is the name in lower case. -/
def namesOf (ng : Nginx) : Names where
  inet := fun name => if inetAddr ng name ≠ inaddrNone then some (inetAddr ng name) else none
  inet6 := ng.inet6Addr
  host := fun name =>
    let buf := strlow name
    ng.hashFindCombined (ng.hashKeyLc buf) buf

def hasUnixPrefix (host : Bytes) : Bool := strlow (host.take 5) == [117, 110, 105, 120, 58]

/-- The path fits into `sun_path`. -/
def IsPath (path : Bytes) : Prop := path ≠ [] ∧ path.length ≤ 107

instance (path : Bytes) : Decidable (IsPath path) := inferInstanceAs (Decidable (_ ∧ _))

/-- What the code relies on. -/
structure Documented (ng : Nginx) (rules : List HostRule) : Prop where
  /-- An IPv4 address is written with digits and dots. -/
  dotted : ∀ name a, ng.dotted name = some a → 46 ∈ name ∧ ∀ c ∈ name, c = 46 ∨ 48 ≤ c ∧ c ≤ 57
  /-- An IPv6 address is written with colons, its digits in any case. -/
  colon : ∀ name a, ng.inet6Addr name = some a → 58 ∈ name
  anyCase : ∀ name, ng.inet6Addr (strlow name) = ng.inet6Addr name
  found : ∀ name, strlow name = name → name ≠ [] →
    ng.hashFindCombined (ng.hashKeyLc name) name = mostSpecific rules name
  unix : ∀ url port, hasUnixPrefix url = true →
    ng.parseUrl url port = if IsPath (url.drop 5) then some ⟨url.drop 5, some .unix⟩ else none
  bracket : ∀ url port u, ng.parseUrl (91 :: url) port = some u →
    93 ∈ url ∧ ∃ a, ng.inet6Addr (url.takeWhile (· ≠ 93)) = some a ∧ u.addr = some (.inet6 a)
  plain : ∀ url port u, hasUnixPrefix url = false → url.head? ≠ some 91 →
    ng.parseUrl url port = some u →
    u.host = url.takeWhile (· ≠ 58) ∧ u.addr = ((namesOf ng).inet u.host).map .inet

/-- The part of `ngx_wasm_socket_tcp_init` that reads the host. -/
def socketTcpInit (ng : Nginx) (host : Bytes) (tls : Bool) : Option Url :=
  ng.parseUrl host (if tls then 443 else 80)

/-! ### What the verdict says -/

/-- Where a connection goes: to an address, or to what a name resolves to. -/
inductive Target where
  | addr (a : Sockaddr)
  | name (n : Bytes)
  deriving DecidableEq

def Url.target (u : Url) : Target :=
  match u.addr with
  | some a => .addr a
  | none => .name u.host

/-- What `ngx_wasm_acl_check_host` looks up. -/
def lookedUp (ng : Nginx) (host : Bytes) : Option Target :=
  (hostName host).map fun name =>
    match (namesOf ng).inet name with
    | some v4 => .addr (.inet v4)
    | none =>
      match (namesOf ng).inet6 name with
      | some v6 => .addr (.inet6 v6)
      | none => .name name

/-- The address that a text stands for. -/
def literal (ng : Nginx) (name : Bytes) : Option Sockaddr :=
  ((ng.dotted name).map .inet).or ((ng.inet6Addr name).map .inet6)

section
variable {T4 : Table 32 Tag} {T6 : Table 128 Tag} (cidrMatch : Sockaddr → List Cidr → Bool)
variable (ng : Nginx) (rules : List HostRule) (acl : Acl T4 T6)

/-- The host part is an address that `ngx_wasm_acl_check_addr` takes, or a name whose most specific
rule is an allow rule. -/
def Accepted (host : Bytes) : Prop :=
  ∃ name, hostName host = some name ∧
    match literal ng name with
    | some a => checkAddr cidrMatch acl a = .ok
    | none => name ≠ [] ∧ mostSpecific rules (strlow name) = some .allow

/-- Texts that differ in the port and in the case of letters. -/
def SameHost (host host' : Bytes) : Prop :=
  ∃ name name', hostName host = some name ∧ hostName host' = some name' ∧ name ≠ [] ∧
    strlow name = strlow name'

structure Sound (host : Bytes) : Prop where
  verdict : checkHost cidrMatch (namesOf ng) acl host = .ok ↔ Accepted cidrMatch ng rules acl host
  stable : ∀ host', SameHost host host' →
    checkHost cidrMatch (namesOf ng) acl host' = checkHost cidrMatch (namesOf ng) acl host
  target : ∀ tls u, checkHost cidrMatch (namesOf ng) acl host = .ok →
    socketTcpInit ng host tls = some u → some u.target = lookedUp ng host

/-- The text is none of the three that the check and the rules, or the check and the connection,
read differently. -/
structure ReadAlike (host : Bytes) : Prop where
  /-- `255.255.255.255` is looked up among the names. -/
  broadcast : ∀ name, hostName host = some name → ng.dotted name = some inaddrNone →
    (checkAddr cidrMatch acl (.inet inaddrNone) = .ok ↔
      name.length ≤ 256 ∧ mostSpecific rules (strlow name) = some .allow)
  /-- A name that does not fit into `buf`. -/
  long : ∀ name, hostName host = some name → literal ng name = none → 256 < name.length →
    mostSpecific rules (strlow name) ≠ some .allow
  /-- A path is checked as the name `unix`. -/
  unix : hasUnixPrefix host = true → IsPath (host.drop 5) →
    mostSpecific rules [117, 110, 105, 120] ≠ some .allow

end

/-! ### Letters, digits and dots -/

theorem strlow_length (name : Bytes) : (strlow name).length = name.length := List.length_map ..

/-- `ngx_tolower`. -/
def lowByte (b : UInt8) : UInt8 := if 65 ≤ b ∧ b ≤ 90 then b ||| 0x20 else b

theorem lowByte_idem : ∀ b : UInt8, lowByte (lowByte b) = lowByte b :=
  byte_forall (by decide)

theorem lowByte_digit : ∀ b : UInt8,
    (lowByte b = 46 ∨ 48 ≤ lowByte b ∧ lowByte b ≤ 57 → lowByte b = b) ∧
      (b = 46 ∨ 48 ≤ b ∧ b ≤ 57 → lowByte b = b) :=
  byte_forall (by decide)

theorem strlow_idem (name : Bytes) : strlow (strlow name) = strlow name := by
  show (name.map lowByte).map lowByte = name.map lowByte
  rw [List.map_map]
  exact List.map_congr_left fun b _ => lowByte_idem b

theorem strlow_digits {name : Bytes} (h : ∀ c ∈ name, c = 46 ∨ 48 ≤ c ∧ c ≤ 57) :
    strlow name = name := by
  show name.map lowByte = name
  conv_rhs => rw [← List.map_id name]
  exact List.map_congr_left fun c hc => (lowByte_digit c).2 (h c hc)

theorem digits_of_strlow {name : Bytes} (h : ∀ c ∈ strlow name, c = 46 ∨ 48 ≤ c ∧ c ≤ 57) :
    strlow name = name := by
  show name.map lowByte = name
  conv_rhs => rw [← List.map_id name]
  exact List.map_congr_left fun c hc => (lowByte_digit c).1 (h _ (List.mem_map_of_mem hc))

section
variable {ng : Nginx} {rules : List HostRule} (doc : Documented ng rules)
include doc

theorem dotted_no_colon {name : Bytes} {a : InAddr} (h : ng.dotted name = some a) :
    58 ∉ name := by
  intro hmem
  exact absurd ((doc.dotted name a h).2 58 hmem) (by decide)

theorem dotted_inet6 {name : Bytes} {a : InAddr} (h : ng.dotted name = some a) :
    ng.inet6Addr name = none := by
  rw [Option.eq_none_iff_forall_ne_some]
  intro b hb
  exact dotted_no_colon doc h (doc.colon name b hb)

theorem dotted_strlow {name name' : Bytes} (h : strlow name = strlow name') {a : InAddr}
    (ha : ng.dotted name = some a) : name = name' := by
  have hdigits := (doc.dotted name a ha).2
  have hname := strlow_digits hdigits
  rw [hname] at h
  rw [h] at hdigits
  exact h.trans (digits_of_strlow hdigits)

theorem dotted_congr {name name' : Bytes} (h : strlow name = strlow name') :
    ng.dotted name = ng.dotted name' := by
  cases hname : ng.dotted name with
  | some a => rw [← dotted_strlow doc h hname, hname]
  | none =>
    cases hname' : ng.dotted name' with
    | none => rfl
    | some a =>
      rw [dotted_strlow doc h.symm hname', hname] at hname'
      exact absurd hname' (by simp)

end

/-! ### The check of a name -/

section
variable {T4 : Table 32 Tag} {T6 : Table 128 Tag} {cidrMatch : Sockaddr → List Cidr → Bool}
variable {ng : Nginx} {rules : List HostRule} {acl : Acl T4 T6}

/-- `ngx_wasm_acl_check_host` once it has the name. -/
def checkName (cidrMatch : Sockaddr → List Cidr → Bool) (names : Names) (acl : Acl T4 T6)
    (name : Bytes) : Rc :=
  match names.inet name with
  | some v4 => checkAddr cidrMatch acl (.inet v4)
  | none =>
    match names.inet6 name with
    | some v6 => checkAddr cidrMatch acl (.inet6 v6)
    | none =>
      if name.length = 0 ∨ 256 < name.length then .declined
      else if names.host name = some .allow then .ok else .declined

theorem checkHost_name (names : Names) (acl : Acl T4 T6) {host name : Bytes}
    (h : hostName host = some name) (hne : name ≠ []) :
    checkHost cidrMatch names acl host = checkName cidrMatch names acl name := by
  have hhost : host ≠ [] := by
    rintro rfl
    exact hne (Option.some.inj h).symm
  rw [checkHost, if_neg hhost, h]
  rfl

theorem checkName_dotted {name : Bytes} {a : InAddr} (h : ng.dotted name = some a)
    (ha : a ≠ inaddrNone) :
    checkName cidrMatch (namesOf ng) acl name = checkAddr cidrMatch acl (.inet a) := by
  have hinet : (namesOf ng).inet name = some a := by
    simp only [namesOf, inetAddr, h, Option.getD_some]
    exact if_pos ha
  rw [checkName, hinet]

theorem namesOf_inet_none {name : Bytes}
    (h : ng.dotted name = none ∨ ng.dotted name = some inaddrNone) :
    (namesOf ng).inet name = none := by
  have hnone : inetAddr ng name = inaddrNone := by
    rcases h with h | h <;> rw [inetAddr, h] <;> rfl
  simp only [namesOf, hnone, ne_eq, not_true_eq_false, if_false]

theorem checkName_inet6 {name : Bytes} {b : BitVec 128} (h : ng.dotted name = none)
    (h6 : ng.inet6Addr name = some b) :
    checkName cidrMatch (namesOf ng) acl name = checkAddr cidrMatch acl (.inet6 b) := by
  have hinet6 : (namesOf ng).inet6 name = some b := h6
  rw [checkName, namesOf_inet_none (.inl h), hinet6]

/-- A name that is looked up among the hosts. -/
theorem checkName_listed (doc : Documented ng rules) {name : Bytes}
    (h : (namesOf ng).inet name = none) (h6 : ng.inet6Addr name = none) (hne : name ≠ []) :
    checkName cidrMatch (namesOf ng) acl name = .ok ↔
      name.length ≤ 256 ∧ mostSpecific rules (strlow name) = some .allow := by
  have hinet6 : (namesOf ng).inet6 name = none := h6
  have hlow : strlow name ≠ [] := by
    intro hnil
    rw [strlow, List.map_eq_nil_iff] at hnil
    exact hne hnil
  have hfind : (namesOf ng).host name = mostSpecific rules (strlow name) :=
    doc.found (strlow name) (strlow_idem name) hlow
  have hpos := List.length_pos_iff.mpr hne
  rw [checkName, h, hinet6, hfind]
  simp only
  by_cases hlong : 256 < name.length
  · rw [if_pos (.inr hlong)]
    exact iff_of_false (by decide) fun hok => absurd hok.1 (by omega)
  · rw [if_neg (by omega)]
    by_cases hallow : mostSpecific rules (strlow name) = some .allow
    · rw [if_pos hallow]
      exact iff_of_true rfl ⟨by omega, hallow⟩
    · rw [if_neg hallow]
      exact iff_of_false (by decide) fun hok => hallow hok.2

theorem dotted_nil (doc : Documented ng rules) : ng.dotted [] = none := by
  rw [Option.eq_none_iff_forall_ne_some]
  intro a ha
  exact absurd (doc.dotted [] a ha).1 List.not_mem_nil

theorem checkHost_unnamed (doc : Documented ng rules) {host : Bytes}
    (h : hostName host = none ∨ hostName host = some []) :
    checkHost cidrMatch (namesOf ng) acl host ≠ .ok ∧ ¬ Accepted cidrMatch ng rules acl host := by
  have hdotted := dotted_nil doc
  have hinet6 : ng.inet6Addr [] = none := by
    rw [Option.eq_none_iff_forall_ne_some]
    intro b hb
    exact absurd (doc.colon [] b hb) List.not_mem_nil
  refine ⟨?_, ?_⟩
  · rw [checkHost]
    by_cases hhost : host = []
    · rw [if_pos hhost]
      decide
    · rw [if_neg hhost]
      rcases h with h | h
      · rw [h]
        exact Rc.noConfusion
      · have hnames6 : (namesOf ng).inet6 [] = none := hinet6
        simp only [h, namesOf_inet_none (.inl hdotted), hnames6]
        rw [if_pos (.inl rfl)]
        exact Rc.noConfusion
  · intro ⟨name, hname, hbody⟩
    rcases h with h | h
    · rw [h] at hname
      exact absurd hname (by simp)
    · rw [h, Option.some.injEq] at hname
      rw [← hname, literal, hdotted, hinet6] at hbody
      exact hbody.1 rfl

theorem accepted_name {host name : Bytes} (h : hostName host = some name) :
    Accepted cidrMatch ng rules acl host ↔
      match literal ng name with
      | some a => checkAddr cidrMatch acl a = .ok
      | none => name ≠ [] ∧ mostSpecific rules (strlow name) = some .allow := by
  constructor
  · intro ⟨name', hname', hbody⟩
    rw [h, Option.some.injEq] at hname'
    rw [hname']
    exact hbody
  · intro hbody
    exact ⟨name, h, hbody⟩

/-- The verdict agrees with the rules exactly where the first two conditions hold. -/
theorem verdict_iff (doc : Documented ng rules) {host name : Bytes}
    (h : hostName host = some name) (hne : name ≠ []) :
    (checkHost cidrMatch (namesOf ng) acl host = .ok ↔ Accepted cidrMatch ng rules acl host) ↔
      (ng.dotted name = some inaddrNone → (checkAddr cidrMatch acl (.inet inaddrNone) = .ok ↔
        name.length ≤ 256 ∧ mostSpecific rules (strlow name) = some .allow)) ∧
      (literal ng name = none → 256 < name.length →
        mostSpecific rules (strlow name) ≠ some .allow) := by
  rw [checkHost_name _ _ h hne, accepted_name h]
  cases hdotted : ng.dotted name with
  | some a =>
    have hliteral : literal ng name = some (.inet a) := by rw [literal, hdotted]; rfl
    rw [hliteral]
    by_cases ha : a = inaddrNone
    · subst ha
      have hinet := namesOf_inet_none (.inr hdotted)
      rw [checkName_listed doc hinet (dotted_inet6 doc hdotted) hne]
      constructor
      · intro hverdict
        exact ⟨fun _ => hverdict.symm, fun hno => absurd hno (by simp)⟩
      · intro hcond
        exact (hcond.1 rfl).symm
    · rw [checkName_dotted hdotted ha]
      refine iff_of_true Iff.rfl ⟨?_, fun hno => absurd hno (by simp)⟩
      intro hbroadcast
      exact absurd (Option.some.inj hbroadcast) ha
  | none =>
    cases hinet6 : ng.inet6Addr name with
    | some b =>
      have hliteral : literal ng name = some (.inet6 b) := by rw [literal, hdotted, hinet6]; rfl
      rw [checkName_inet6 hdotted hinet6, hliteral]
      exact iff_of_true Iff.rfl ⟨fun hno => absurd hno (by simp), fun hno => absurd hno (by simp)⟩
    | none =>
      have hliteral : literal ng name = none := by rw [literal, hdotted, hinet6]; rfl
      rw [checkName_listed doc (namesOf_inet_none (.inl hdotted)) hinet6 hne, hliteral]
      constructor
      · intro hverdict
        refine ⟨fun hno => absurd hno (by simp), ?_⟩
        intro _ hlong hallow
        have hshort := (hverdict.mpr ⟨hne, hallow⟩).1
        omega
      · intro hcond
        refine ⟨fun hok => ⟨hne, hok.2⟩, ?_⟩
        intro hok
        refine ⟨?_, hok.2⟩
        by_contra hlong
        exact hcond.2 rfl (by omega) hok.2

/-- The verdict does not depend on the port nor on the case of letters. -/
theorem checkHost_stable (doc : Documented ng rules) {host host' : Bytes}
    (h : SameHost host host') : checkHost cidrMatch (namesOf ng) acl host' =
      checkHost cidrMatch (namesOf ng) acl host := by
  obtain ⟨name, name', hname, hname', hne, hlow⟩ := h
  have hlength : name.length = name'.length := by
    rw [← strlow_length name, hlow, strlow_length]
  have hne' : name' ≠ [] := by
    rintro rfl
    exact hne (List.eq_nil_of_length_eq_zero hlength)
  have hinet : (namesOf ng).inet name' = (namesOf ng).inet name := by
    have haddr : inetAddr ng name' = inetAddr ng name := by
      rw [inetAddr, inetAddr, dotted_congr doc hlow]
    simp only [namesOf]
    rw [haddr]
  have hinet6 : (namesOf ng).inet6 name' = (namesOf ng).inet6 name := by
    show ng.inet6Addr name' = ng.inet6Addr name
    rw [← doc.anyCase name', ← hlow, doc.anyCase]
  have hhost : (namesOf ng).host name' = (namesOf ng).host name := by
    simp only [namesOf, hlow]
  rw [checkHost_name _ _ hname hne, checkHost_name _ _ hname' hne', checkName, checkName, hinet,
    hinet6, hhost, hlength]

/-! ### The connection -/

theorem hostName_plain {host : Bytes} (h : host.head? ≠ some 91) :
    hostName host = some (host.takeWhile (· ≠ 58)) := by
  unfold hostName
  split
  · exact absurd rfl h
  · rfl

theorem lowByte_colon : ∀ b : UInt8, lowByte b = 58 → b = 58 :=
  byte_forall (by decide)

/-- The name in front of a path is `unix`. -/
theorem unix_head {host : Bytes} (h : hasUnixPrefix host = true) :
    ∃ name, hostName host = some name ∧ strlow name = [117, 110, 105, 120] ∧
      host.head? ≠ some 91 := by
  have hletters : (host.take 5).map lowByte = [117, 110, 105, 120, 58] :=
    eq_of_beq h
  match host, hletters with
  | u :: n :: i :: x :: colon :: path, hletters =>
    simp only [List.take_succ_cons, List.take_zero, List.map_cons, List.map_nil,
      List.cons.injEq, and_true] at hletters
    obtain ⟨hu, hn, hi, hx, hcolon⟩ := hletters
    have hne (b : UInt8) {c : UInt8} (hb : lowByte b = c) (hc : c ≠ 58) : b ≠ 58 := by
      rintro rfl
      exact hc hb.symm
    have hhead : (u :: n :: i :: x :: colon :: path).head? ≠ some 91 := by
      intro hbracket
      rw [List.head?_cons, Option.some.injEq] at hbracket
      rw [hbracket] at hu
      exact absurd hu (by decide)
    refine ⟨[u, n, i, x], ?_, ?_, hhead⟩
    · rw [hostName_plain hhead]
      rw [List.takeWhile_cons_of_pos (by simpa using hne u hu (by decide)),
        List.takeWhile_cons_of_pos (by simpa using hne n hn (by decide)),
        List.takeWhile_cons_of_pos (by simpa using hne i hi (by decide)),
        List.takeWhile_cons_of_pos (by simpa using hne x hx (by decide)),
        List.takeWhile_cons_of_neg (by simpa using lowByte_colon colon hcolon)]
    · show [lowByte u, lowByte n, lowByte i, lowByte x] = _
      rw [hu, hn, hi, hx]
  | [], hletters => exact absurd hletters (by simp)
  | [_], hletters => exact absurd (congrArg List.length hletters) (by simp)
  | [_, _], hletters => exact absurd (congrArg List.length hletters) (by simp)
  | [_, _, _], hletters => exact absurd (congrArg List.length hletters) (by simp)
  | [_, _, _, _], hletters => exact absurd (congrArg List.length hletters) (by simp)

/-- A text that is no path is connected to as it was checked. -/
theorem target_alike (doc : Documented ng rules) {host : Bytes} {tls : Bool} {u : Url}
    (h : hasUnixPrefix host = false) (hinit : socketTcpInit ng host tls = some u) :
    some u.target = lookedUp ng host := by
  by_cases hbracket : host.head? = some 91
  · obtain ⟨rest, rfl⟩ : ∃ rest, host = 91 :: rest := by
      cases host with
      | nil => exact absurd hbracket (by simp)
      | cons b rest =>
        rw [List.head?_cons, Option.some.injEq] at hbracket
        exact ⟨rest, by rw [hbracket]⟩
    obtain ⟨hclosed, b, hb, haddr⟩ := doc.bracket _ _ _ hinit
    have hinet : (namesOf ng).inet (rest.takeWhile (· ≠ 93)) = none := by
      apply namesOf_inet_none
      left
      rw [Option.eq_none_iff_forall_ne_some]
      intro a ha
      exact dotted_no_colon doc ha (doc.colon _ _ hb)
    have hinet6 : (namesOf ng).inet6 (rest.takeWhile (· ≠ 93)) = some b := hb
    have hname : hostName (91 :: rest) = some (rest.takeWhile (· ≠ 93)) := if_pos hclosed
    rw [lookedUp, hname, Option.map_some, hinet, hinet6, Url.target, haddr]
  · obtain ⟨hhost, haddr⟩ := doc.plain _ _ _ h hbracket hinit
    have hcolon : 58 ∉ host.takeWhile (· ≠ 58) := by
      intro hmem
      exact absurd (List.mem_takeWhile_imp hmem) (by decide)
    have hinet6 : (namesOf ng).inet6 (host.takeWhile (· ≠ 58)) = none := by
      rw [Option.eq_none_iff_forall_ne_some]
      intro b hb
      exact hcolon (doc.colon _ _ hb)
    rw [lookedUp, hostName_plain hbracket, Option.map_some, hinet6, ← hhost, Url.target, haddr]
    cases (namesOf ng).inet u.host <;> rfl

/-- The name `unix` is checked by the rules on names. -/
theorem unix_checked (doc : Documented ng rules) {host name : Bytes}
    (hname : hostName host = some name) (hunix : strlow name = [117, 110, 105, 120]) :
    (checkHost cidrMatch (namesOf ng) acl host = .ok ↔
        mostSpecific rules [117, 110, 105, 120] = some .allow) ∧
      lookedUp ng host = some (.name name) := by
  have hlength : name.length = 4 := by rw [← strlow_length, hunix]; rfl
  have hne : name ≠ [] := by
    rintro rfl
    exact absurd hlength (by decide)
  have hdotted : ng.dotted name = none := by
    rw [Option.eq_none_iff_forall_ne_some]
    intro a ha
    have hdigits := (doc.dotted name a ha).2
    rw [← strlow_digits hdigits, hunix] at hdigits
    exact absurd (hdigits 117 (by decide)) (by decide)
  have hinet6 : ng.inet6Addr name = none := by
    rw [Option.eq_none_iff_forall_ne_some]
    intro b hb
    rw [← doc.anyCase, hunix] at hb
    exact absurd (doc.colon _ _ hb) (by decide)
  have hnone := namesOf_inet_none (.inl hdotted)
  have hnone6 : (namesOf ng).inet6 name = none := hinet6
  refine ⟨?_, ?_⟩
  · rw [checkHost_name _ _ hname hne, checkName_listed doc hnone hinet6 hne, hunix, hlength]
    exact and_iff_right (by decide)
  · rw [lookedUp, hname, Option.map_some, hnone, hnone6]

theorem target_iff (doc : Documented ng rules) (host : Bytes) :
    (∀ tls u, checkHost cidrMatch (namesOf ng) acl host = .ok →
        socketTcpInit ng host tls = some u → some u.target = lookedUp ng host) ↔
      (hasUnixPrefix host = true → IsPath (host.drop 5) →
        mostSpecific rules [117, 110, 105, 120] ≠ some .allow) := by
  by_cases hunix : hasUnixPrefix host = true
  · obtain ⟨name, hname, hlow, -⟩ := unix_head hunix
    obtain ⟨hcheck, hlooked⟩ := unix_checked doc hname hlow
    have hinit (tls : Bool) : socketTcpInit ng host tls =
        if IsPath (host.drop 5) then some ⟨host.drop 5, some .unix⟩ else none :=
      doc.unix host _ hunix
    constructor
    · intro htarget _ hpath hallow
      have heq := htarget false ⟨host.drop 5, some .unix⟩ (hcheck.mpr hallow)
        ((hinit false).trans (if_pos hpath))
      rw [hlooked] at heq
      exact absurd heq (by simp [Url.target])
    · intro hcond tls u hok hu
      rw [hinit] at hu
      by_cases hpath : IsPath (host.drop 5)
      · exact absurd (hcheck.mp hok) (hcond hunix hpath)
      · rw [if_neg hpath] at hu
        exact absurd hu (by simp)
  · rw [Bool.not_eq_true] at hunix
    refine iff_of_true (fun tls u _ hu => target_alike doc hunix hu) ?_
    intro hno
    rw [hunix] at hno
    exact absurd hno (by decide)

end

/-! ### Where verdict and connection agree with the rules -/

/-- The check and the connection agree with the rules unless the text is one of the three. -/
theorem check_host_iff {T4 : Table 32 Tag} {T6 : Table 128 Tag}
    (cidrMatch : Sockaddr → List Cidr → Bool) (ng : Nginx) (rules : List HostRule)
    (doc : Documented ng rules) (acl : Acl T4 T6) (host : Bytes) :
    Sound cidrMatch ng rules acl host ↔ ReadAlike cidrMatch ng rules acl host := by
  have htarget := @target_iff T4 T6 cidrMatch ng rules acl doc host
  by_cases hnamed : ∃ name, hostName host = some name ∧ name ≠ []
  · obtain ⟨name, hname, hne⟩ := hnamed
    have hverdict := @verdict_iff T4 T6 cidrMatch ng rules acl doc host name hname hne
    constructor
    · intro ⟨hok, _, hto⟩
      obtain ⟨hbroadcast, hlong⟩ := hverdict.mp hok
      refine ⟨?_, ?_, htarget.mp hto⟩
      · intro name' hname'
        rw [hname, Option.some.injEq] at hname'
        exact hname' ▸ hbroadcast
      · intro name' hname'
        rw [hname, Option.some.injEq] at hname'
        exact hname' ▸ hlong
    · intro hcond
      exact ⟨hverdict.mpr ⟨hcond.broadcast name hname, hcond.long name hname⟩,
        fun host' hsame => checkHost_stable doc hsame, htarget.mpr hcond.unix⟩
  · have hcases : hostName host = none ∨ hostName host = some [] := by
      cases hname : hostName host with
      | none => exact .inl rfl
      | some name =>
        by_cases hnil : name = []
        · exact .inr (by rw [hnil])
        · exact absurd ⟨name, hname, hnil⟩ hnamed
    obtain ⟨hcheck, haccepted⟩ := checkHost_unnamed doc hcases
    constructor
    · intro hsound
      have hnil {name : Bytes} (hname : hostName host = some name) : name = [] := by
        by_contra hne
        exact hnamed ⟨name, hname, hne⟩
      refine ⟨?_, ?_, htarget.mp hsound.target⟩
      · intro name hname hdotted
        rw [hnil hname, dotted_nil doc] at hdotted
        exact absurd hdotted (by simp)
      · intro name hname _ hlong
        rw [hnil hname] at hlong
        exact absurd hlong (by simp)
    · intro hcond
      exact ⟨iff_of_false hcheck haccepted, fun host' hsame => checkHost_stable doc hsame,
        htarget.mpr hcond.unix⟩

/-! ### Two texts -/

/-- Reads `::1`, no IPv4 address, and urls without a check of their ports. -/
def loopback (rules : List HostRule) : Nginx where
  dotted := fun _ => none
  inet6Addr := fun name => if strlow name = [58, 58, 49] then some 1 else none
  hashKeyLc := fun _ => 0
  hashFindCombined := fun _ name => mostSpecific rules name
  parseUrl := fun url _ =>
    if hasUnixPrefix url = true then
      if IsPath (url.drop 5) then some ⟨url.drop 5, some .unix⟩ else none
    else if url.head? = some 91 then
      if 93 ∈ url.tail ∧ strlow (url.tail.takeWhile (· ≠ 93)) = [58, 58, 49] then
        some ⟨url, some (.inet6 1)⟩
      else none
    else some ⟨url.takeWhile (· ≠ 58), none⟩

theorem loopback_documented (rules : List HostRule) : Documented (loopback rules) rules where
  dotted := fun name a h => absurd h (by simp [loopback])
  colon := by
    intro name a h
    simp only [loopback] at h
    split at h
    · rename_i hlow
      have hmem : (58 : UInt8) ∈ name.map lowByte := by
        rw [show name.map lowByte = _ from hlow]
        decide
      obtain ⟨b, hb, hcolon⟩ := List.mem_map.mp hmem
      rw [← lowByte_colon b hcolon]
      exact hb
    · exact absurd h (by simp)
  anyCase := by
    intro name
    simp only [loopback, strlow_idem]
  found := fun name _ _ => rfl
  unix := fun url port h => if_pos h
  bracket := by
    intro url port u h
    simp only [loopback] at h
    have hunix : hasUnixPrefix (91 :: url) ≠ true := by
      intro hunix
      obtain ⟨_, _, _, hhead⟩ := unix_head hunix
      exact hhead rfl
    rw [if_neg hunix, if_pos List.head?_cons, List.tail_cons] at h
    split at h
    · rename_i hclosed
      rw [Option.some.injEq] at h
      rw [← h]
      exact ⟨hclosed.1, 1, if_pos hclosed.2, rfl⟩
    · exact absurd h (by simp)
  plain := by
    intro url port u hunix hhead h
    simp only [loopback] at h
    rw [if_neg (by rw [hunix]; decide), if_neg hhead, Option.some.injEq] at h
    rw [← h]
    exact ⟨rfl, rfl⟩

/-- `allow ::1/128;` and `allow_host *.example.com;` -/
def v6Allow : Acl (listTable 32 Tag) (listTable 128 Tag) :=
  aclInit ⟨[], [(⟨1, BitVec.allOnes 128⟩, .allow)]⟩

def exampleHosts : List HostRule := [⟨ascii "*.example.com", .allow⟩]

/-- `Api.Example.COM:8443`. -/
theorem host_port_sound :
    checkHost cidrMatchList (namesOf (loopback exampleHosts)) v6Allow
        (ascii "Api.Example.COM:8443") = .ok ∧
      Sound cidrMatchList (loopback exampleHosts) exampleHosts v6Allow
        (ascii "Api.Example.COM:8443") := by
  refine ⟨by decide, (check_host_iff cidrMatchList _ exampleHosts
    (loopback_documented exampleHosts) v6Allow _).mpr ⟨?_, ?_, ?_⟩⟩
  · intro name _ hdotted
    exact absurd hdotted (by simp [loopback])
  · intro name hname _ hlong
    have hshort : (hostName (ascii "Api.Example.COM:8443")).map List.length = some 15 := by
      decide
    rw [hname, Option.map_some, Option.some.injEq] at hshort
    omega
  · intro hunix
    exact absurd hunix (by decide)

/-- `allow_host unix;` lets a filter connect to the socket at the path `80`. -/
theorem unix_host_reaches_socket :
    ¬ ∀ {T4 : Table 32 Tag} {T6 : Table 128 Tag} (cidrMatch : Sockaddr → List Cidr → Bool)
      (ng : Nginx) (rules : List HostRule), Documented ng rules → ∀ (acl : Acl T4 T6) (host : Bytes),
      Sound cidrMatch ng rules acl host := by
  intro h
  have hsound := h cidrMatchList (loopback [⟨ascii "unix", .allow⟩]) _ (loopback_documented _) v6Allow
    (ascii "unix:80")
  have htarget := hsound.target false ⟨ascii "80", some .unix⟩ (by decide) (by decide)
  exact absurd htarget (by decide)

end NgxWasm.Access.HostVerdict
