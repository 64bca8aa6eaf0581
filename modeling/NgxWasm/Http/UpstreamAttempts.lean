import NgxWasm.Http.UpstreamSelect

/-!
# What one connection attempt takes over from the ones before

An attempt should connect with what was selected and set in it and otherwise with
the configuration. SNI, Host, TLS flag, schema and TLS name of earlier attempts
stay in the peer data and in nginx's upstream object.
-/

namespace NgxWasm.Http.UpstreamAttempts

open NgxWasm NgxWasm.Http.UpstreamSelect NgxWasm.Lib.Run

variable {Addr : Type} (env : Env Addr) (conf : Upstream)

/-- A selection that passes every check on the arguments. -/
structure Choice (Addr : Type) where
  addr : Addr
  tls : Bool
  sni : Bytes
  sniAlloc : Bool

def accepts : GuestCall → Option (Choice Addr)
  | .setUpstream filter addr port tls sni addrAlloc sniAlloc =>
    if 65535 < port ∨ (tls ≠ 0 ∧ tls ≠ 1) ∨ addrAlloc = false then none
    else
      match env.parseUrl (urlOf addr) port with
      | none => none
      | some a => if env.forbids filter a then none else some ⟨a, tls == 1, sni, sniAlloc⟩
  | _ => none

/-- The copy of the SNI does not fail. -/
def Choice.complete (c : Choice Addr) : Bool := c.sni.length == 0 || c.sniAlloc

/-- The selection that holds in an attempt: the first call that is answered with
`NGX_PROXY_WASM_RESULT_OK`. -/
def selected (calls : List GuestCall) : Option (Choice Addr) :=
  calls.findSome? fun c => (accepts env c).filter Choice.complete

def hostSet : GuestCall → Option Bytes
  | .setHost value => some value
  | _ => none

/-- The Host the guests ask for, if any. -/
def hostOf (calls : List GuestCall) : Option Bytes := (calls.filterMap hostSet).getLast?

/-- An empty Host counts as none. -/
def expectedHost (a : Attempt Addr) : Bytes :=
  match hostOf a.calls with
  | some value => if value.length ≠ 0 then value else conf.requestHost
  | none => conf.requestHost

/-- What the calls of the attempt and the configuration ask for. -/
def expected (a : Attempt Addr) : Option (Used Addr) :=
  match selected env a.calls with
  | some c => some
    { addr := c.addr
      ssl := c.tls
      schema := if c.tls then .https else .http
      sni := if c.tls then some (if c.sni.length ≠ 0 then c.sni else conf.sslName) else none
      host := expectedHost conf a }
  | none => a.original.map fun addr =>
    { addr
      ssl := conf.ssl
      schema := conf.schema
      sni := if conf.ssl then some conf.sslName else none
      host := expectedHost conf a }

/-- The refused calls changed nothing, and an attempt that connects does so with
what it should. -/
def Clean (a : Attempt Addr) (r : Report Addr) : Prop :=
  (∀ p ∈ r.refused, p.1 = p.2) ∧ ∀ used, r.used = some used → expected env conf a = some used

def sets : GuestCall → Bool
  | .setUpstream .. => false
  | _ => true

/-- `get_peer` returns `NGX_OK`. -/
def Connects (a : Attempt Addr) : Prop :=
  a.resumed = true ∧ a.localResponse = false ∧ (a.calls.any sets = true → a.created = true) ∧
    (selected env a.calls = none → a.original.isSome)

/-- What earlier attempts left of TLS flag, schema and names is what this one is to
use. -/
def PeerKept (st : State Addr) (a : Attempt Addr) : Prop :=
  match selected env a.calls with
  | none => st.u.ssl = conf.ssl ∧ st.u.schema = conf.schema ∧
      (conf.ssl = true → st.u.sslName = conf.sslName)
  | some c => c.tls = true → c.sni = [] →
      (if st.up.sni.length ≠ 0 then st.up.sni else st.u.sslName) = conf.sslName

def HostKept (st : State Addr) (a : Attempt Addr) : Prop :=
  hostOf a.calls = none →
    if a.calls.any sets then upstreamHostVariable st.up conf.requestHost = conf.requestHost
    else st.u.requestHost = conf.requestHost

/-- No accepted call runs out of memory for its SNI, and an attempt that connects
finds nothing of another peer. -/
def Unspoiled (st : State Addr) (a : Attempt Addr) : Prop :=
  st.ended = false →
    (∀ c, a.calls.findSome? (accepts env) = some c → c.complete = true) ∧
    (Connects env a → PeerKept env conf st a ∧ HostKept conf st a)

section Calls

variable {env}

theorem setUpstream_taken {up : PeerData Addr} (h : up.sockaddr.isSome) (filter : ℕ) (addr : Bytes)
    (port tls : ℕ) (sni : Bytes) (addrAlloc sniAlloc : Bool) :
    (proxySetUpstream env up filter addr port tls sni addrAlloc sniAlloc).1 = up ∧
      (proxySetUpstream env up filter addr port tls sni addrAlloc sniAlloc).2 ≠ .ok := by
  unfold proxySetUpstream setUpstream
  split
  · simp
  · split
    · simp
    · simp

theorem setUpstream_rejected {up : PeerData Addr} (h : up.sockaddr = none) {filter : ℕ}
    {addr : Bytes} {port tls : ℕ} {sni : Bytes} {addrAlloc sniAlloc : Bool}
    (ha : accepts env (.setUpstream filter addr port tls sni addrAlloc sniAlloc) = none) :
    (proxySetUpstream env up filter addr port tls sni addrAlloc sniAlloc).1 = up ∧
      (proxySetUpstream env up filter addr port tls sni addrAlloc sniAlloc).2 ≠ .ok := by
  unfold proxySetUpstream
  split
  · simp
  · split
    · simp
    · rename_i hport htls
      unfold setUpstream
      simp only [h, Option.isSome_none, Bool.false_eq_true, if_false]
      cases addrAlloc with
      | false => simp
      | true =>
        simp only [accepts, hport, htls, Bool.true_eq_false, or_self, if_false] at ha
        simp only [Bool.not_true, Bool.false_eq_true, if_false]
        cases hurl : env.parseUrl (urlOf addr) port with
        | none => simp
        | some a =>
          rw [hurl] at ha
          simp only at ha
          split at ha
          · rename_i hacl
            simp [hacl]
          · cases ha

/-- A call that is accepted sets the peer; without memory for the SNI it is answered
with a failure nevertheless. -/
theorem setUpstream_accepted {up : PeerData Addr} (h : up.sockaddr = none) {filter : ℕ}
    {addr : Bytes} {port tls : ℕ} {sni : Bytes} {addrAlloc sniAlloc : Bool} {c : Choice Addr}
    (ha : accepts env (.setUpstream filter addr port tls sni addrAlloc sniAlloc) = some c) :
    proxySetUpstream env up filter addr port tls sni addrAlloc sniAlloc =
      if c.complete then
        ({ up with
            sockaddr := some c.addr
            tls := c.tls
            sni := if c.sni.length ≠ 0 then c.sni else up.sni }, .ok)
      else ({ up with sockaddr := some c.addr, tls := c.tls }, .internalFailure) := by
  simp only [accepts] at ha
  split at ha
  · cases ha
  · rename_i hargs
    push Not at hargs
    obtain ⟨hport, htls, halloc⟩ := hargs
    cases hurl : env.parseUrl (urlOf addr) port with
    | none =>
      rw [hurl] at ha
      cases ha
    | some a =>
      rw [hurl] at ha
      simp only at ha
      split at ha
      · cases ha
      · rename_i hacl
        obtain rfl := Option.some.inj ha
        have htls' : ¬ (tls ≠ 0 ∧ tls ≠ 1) := fun h => h.2 (htls h.1)
        have halloc' : addrAlloc = true := by simpa using halloc
        simp only [proxySetUpstream, setUpstream, h, hurl, hacl, halloc', htls', Choice.complete,
          Nat.not_lt.mpr hport, Option.isSome_none, Bool.not_true, Bool.false_eq_true, if_false]
        by_cases hsni : sni.length = 0
        · simp [hsni]
        · cases sniAlloc <;> simp [hsni]

theorem setUpstream_host (up : PeerData Addr) (filter : ℕ) (addr : Bytes) (port tls : ℕ)
    (sni : Bytes) (addrAlloc sniAlloc : Bool) :
    (proxySetUpstream env up filter addr port tls sni addrAlloc sniAlloc).1.host = up.host := by
  cases h : up.sockaddr with
  | some a => rw [(setUpstream_taken (by rw [h]; rfl) ..).1]
  | none =>
    cases ha : accepts env (.setUpstream filter addr port tls sni addrAlloc sniAlloc) with
    | none => rw [(setUpstream_rejected h ha).1]
    | some c =>
      rw [setUpstream_accepted h ha]
      split <;> rfl

variable (env)

/-- What the calls leave of Host, and whether a header was set. -/
theorem folded_headers (calls : List GuestCall) : ∀ s : Selecting Addr,
    (calls.foldl (guestCall env) s).up.host = (hostOf calls).getD s.up.host ∧
    (calls.foldl (guestCall env) s).reqHeadersModified =
      (s.reqHeadersModified || calls.any sets) := by
  induction calls with
  | nil => simp [hostOf]
  | cons c calls ih =>
    intro s
    obtain ⟨hhost, hmod⟩ := ih (guestCall env s c)
    rw [List.foldl_cons, hhost, hmod]
    cases c with
    | setUpstream filter addr port tls sni addrAlloc sniAlloc =>
      simp [guestCall, hostOf, hostSet, sets, setUpstream_host]
    | setHost value =>
      have hlast : ∀ l : List Bytes, (value :: l).getLast? = some (l.getLast?.getD value) := by
        intro l
        rw [List.getLast?_cons]
      simp [guestCall, hostOf, hostSet, sets, hlast]
    | setHeader => simp [guestCall, hostOf, hostSet, sets]

/-- The refused calls of `t` are those of `s` and calls that changed nothing. -/
def Harmless (s t : Selecting Addr) : Prop := ∀ p ∈ t.refused, p ∈ s.refused ∨ p.1 = p.2

theorem harmless_trans {s t u : Selecting Addr} (hst : Harmless s t) (htu : Harmless t u) :
    Harmless s u := by
  intro p hp
  rcases htu p hp with h | h
  · exact hst p h
  · exact .inr h

theorem refused_subset (calls : List GuestCall) : ∀ s : Selecting Addr,
    ∀ p ∈ s.refused, p ∈ (calls.foldl (guestCall env) s).refused := by
  induction calls with
  | nil => exact fun s p hp => hp
  | cons c calls ih =>
    intro s p hp
    apply ih
    cases c with
    | setUpstream filter addr port tls sni addrAlloc sniAlloc =>
      simp only [guestCall]
      split
      · exact hp
      · exact List.mem_append_left _ hp
    | setHost value => exact hp
    | setHeader => exact hp

/-- A call that leaves the peer as it is: a header, or a refused selection. -/
theorem quiet_call {s : Selecting Addr} {c : GuestCall}
    (h : s.up.sockaddr.isSome ∨ accepts env c = none) :
    (guestCall env s c).up = { s.up with host := (guestCall env s c).up.host } ∧
      Harmless s (guestCall env s c) := by
  cases c with
  | setUpstream filter addr port tls sni addrAlloc sniAlloc =>
    have hsame : (proxySetUpstream env s.up filter addr port tls sni addrAlloc sniAlloc).1 = s.up ∧
        (proxySetUpstream env s.up filter addr port tls sni addrAlloc sniAlloc).2 ≠ .ok := by
      cases hs : s.up.sockaddr with
      | some a => exact setUpstream_taken (by rw [hs]; rfl) ..
      | none =>
        rw [hs] at h
        exact setUpstream_rejected hs (h.resolve_left (by simp))
    simp only [guestCall, hsame.1, if_neg hsame.2]
    refine ⟨trivial, ?_⟩
    intro p hp
    rcases List.mem_append.mp hp with hp | hp
    · exact .inl hp
    · rw [List.mem_singleton.mp hp]
      exact .inr rfl
  | setHost value => exact ⟨rfl, fun p hp => .inl hp⟩
  | setHeader => exact ⟨rfl, fun p hp => .inl hp⟩

/-- Once a peer is selected the calls change the Host only. -/
theorem folded_taken (calls : List GuestCall) : ∀ s : Selecting Addr, s.up.sockaddr.isSome →
    (calls.foldl (guestCall env) s).up =
        { s.up with host := (calls.foldl (guestCall env) s).up.host } ∧
      Harmless s (calls.foldl (guestCall env) s) := by
  induction calls with
  | nil => exact fun s _ => ⟨rfl, fun p hp => .inl hp⟩
  | cons c calls ih =>
    intro s h
    obtain ⟨hup, hharm⟩ := quiet_call env (c := c) (.inl h)
    have h' : (guestCall env s c).up.sockaddr.isSome := by
      rw [hup]
      exact h
    obtain ⟨hup', hharm'⟩ := ih _ h'
    rw [List.foldl_cons]
    refine ⟨?_, harmless_trans hharm hharm'⟩
    rw [hup', hup]

/-- The calls of one callback, from a state without a peer. -/
theorem folded_free (calls : List GuestCall) : ∀ s : Selecting Addr, s.up.sockaddr = none →
    (calls.findSome? (accepts env) = none →
      (calls.foldl (guestCall env) s).up =
          { s.up with host := (calls.foldl (guestCall env) s).up.host } ∧
        Harmless s (calls.foldl (guestCall env) s)) ∧
    ∀ c, calls.findSome? (accepts env) = some c →
      (c.complete = true →
        (calls.foldl (guestCall env) s).up =
          { s.up with
            sockaddr := some c.addr
            tls := c.tls
            sni := if c.sni.length ≠ 0 then c.sni else s.up.sni
            host := (calls.foldl (guestCall env) s).up.host } ∧
        Harmless s (calls.foldl (guestCall env) s)) ∧
      (c.complete = false →
        ∃ p ∈ (calls.foldl (guestCall env) s).refused, p.1 ≠ p.2) := by
  induction calls with
  | nil => exact fun s _ => ⟨fun _ => ⟨rfl, fun p hp => .inl hp⟩, fun c hc => by cases hc⟩
  | cons c calls ih =>
    intro s h
    rw [List.foldl_cons, List.findSome?_cons]
    cases ha : accepts env c with
    | none =>
      obtain ⟨hup, hharm⟩ := quiet_call env (s := s) (.inr ha)
      have h' : (guestCall env s c).up.sockaddr = none := by
        rw [hup]
        exact h
      obtain ⟨hnone, hsome⟩ := ih _ h'
      constructor
      · intro hf
        obtain ⟨hup', hharm'⟩ := hnone hf
        exact ⟨by rw [hup', hup], harmless_trans hharm hharm'⟩
      · intro d hd
        obtain ⟨hok, hbad⟩ := hsome d hd
        refine ⟨?_, hbad⟩
        intro hcomplete
        obtain ⟨hup', hharm'⟩ := hok hcomplete
        exact ⟨by rw [hup', hup], harmless_trans hharm hharm'⟩
    | some d =>
      simp only [reduceCtorEq, false_implies, Option.some.injEq, true_and, forall_eq']
      cases c with
      | setHost value => cases ha
      | setHeader => cases ha
      | setUpstream filter addr port tls sni addrAlloc sniAlloc =>
        have hset := setUpstream_accepted h ha
        constructor
        · intro hcomplete
          rw [if_pos hcomplete] at hset
          have hfirst : guestCall env s (.setUpstream filter addr port tls sni addrAlloc sniAlloc) =
              { s with
                up := { s.up with
                  sockaddr := some d.addr
                  tls := d.tls
                  sni := if d.sni.length ≠ 0 then d.sni else s.up.sni } } := by
            simp only [guestCall, hset, if_true]
          rw [hfirst]
          obtain ⟨hup, hharm⟩ := folded_taken env calls { s with
              up := { s.up with
                sockaddr := some d.addr
                tls := d.tls
                sni := if d.sni.length ≠ 0 then d.sni else s.up.sni } } rfl
          exact ⟨hup, hharm⟩
        · intro hcomplete
          rw [if_neg (by simp [hcomplete])] at hset
          refine ⟨(s.up, { s.up with sockaddr := some d.addr, tls := d.tls }), ?_, ?_⟩
          · apply refused_subset
            simp only [guestCall, hset, reduceCtorEq, if_false]
            exact List.mem_append_right _ (List.mem_singleton_self _)
          · intro heq
            have hsock := congrArg PeerData.sockaddr heq
            rw [h] at hsock
            cases hsock

end Calls

variable {env}

theorem selected_eq {calls : List GuestCall}
    (h : ∀ c, calls.findSome? (accepts env) = some c → c.complete = true) :
    selected env calls = calls.findSome? (accepts env) := by
  unfold selected
  induction calls with
  | nil => rfl
  | cons c calls ih =>
    simp only [List.findSome?_cons] at h ⊢
    cases ha : accepts env c with
    | none =>
      rw [ha] at h
      exact ih h
    | some d =>
      rw [ha] at h
      simp [Option.filter, h d rfl]

/-- The Host value of the request after the callback. -/
def hostAfter (conf : Upstream) (st : State Addr) (a : Attempt Addr) : Bytes :=
  if a.calls.any sets then
    upstreamHostVariable { st.up with host := (hostOf a.calls).getD st.up.host } conf.requestHost
  else st.u.requestHost

/-- What an attempt connects with, in terms of the state it starts from. -/
def actual (conf : Upstream) (st : State Addr) (a : Attempt Addr) :
    Option (Choice Addr) → Option (Used Addr)
  | some c => some
    { addr := c.addr
      ssl := c.tls
      schema := if c.tls then .https else .http
      sni := if c.tls then
          some (if c.sni.length ≠ 0 then c.sni
            else if st.up.sni.length ≠ 0 then st.up.sni else st.u.sslName)
        else none
      host := hostAfter conf st a }
  | none => a.original.map fun addr =>
    { addr
      ssl := st.u.ssl
      schema := st.u.schema
      sni := if st.u.ssl then some st.u.sslName else none
      host := hostAfter conf st a }

theorem hostVariable_congr {up up' : PeerData Addr} (h : up.host = up'.host) (proxyHost : Bytes) :
    upstreamHostVariable up proxyHost = upstreamHostVariable up' proxyHost := by
  unfold upstreamHostVariable
  rw [h]

theorem report_eq (conf : Upstream) {st : State Addr} (h : st.ended = false) (a : Attempt Addr) :
    (attempt env conf st a).2.refused = (resumeSelect env st.up a.calls).refused ∧
    (attempt env conf st a).2.used =
      (getPeer conf.requestHost { st with up := (resumeSelect env st.up a.calls).up }
        (resumeSelect env st.up a.calls).reqHeadersModified a).2.map
        (connected (getPeer conf.requestHost { st with up := (resumeSelect env st.up a.calls).up }
          (resumeSelect env st.up a.calls).reqHeadersModified a).1.u) := by
  unfold attempt
  rw [h]
  simp only [Bool.false_eq_true, if_false]
  split
  · rename_i hnone
    rw [hnone]
    exact ⟨rfl, rfl⟩
  · rename_i addr hsome
    rw [hsome]
    exact ⟨rfl, rfl⟩

theorem report_used (conf : Upstream) {st : State Addr} (h : st.ended = false)
    (hfree : st.up.sockaddr = none) {a : Attempt Addr}
    (hc : ∀ c, a.calls.findSome? (accepts env) = some c → c.complete = true) :
    (Connects env a →
      (attempt env conf st a).2.used = actual conf st a (selected env a.calls)) ∧
    (¬ Connects env a → (attempt env conf st a).2.used = none) := by
  obtain ⟨hhost, hmod⟩ := folded_headers env a.calls ⟨st.up, false, []⟩
  obtain ⟨hnone, hsome⟩ := folded_free env a.calls ⟨st.up, false, []⟩ hfree
  rw [(report_eq conf h a).2]
  unfold Connects
  rw [selected_eq hc]
  unfold getPeer resumeSelect
  generalize a.calls.foldl (guestCall env) ⟨st.up, false, []⟩ = t at *
  simp only [Bool.false_or] at hmod
  rw [hmod]
  by_cases hres : a.resumed = true ∧ a.localResponse = false
  · obtain ⟨hr, hl⟩ := hres
    by_cases hcr : a.calls.any sets = true ∧ a.created = false
    · simp [hr, hl, hcr.1, hcr.2]
    · have hgo : (a.calls.any sets && !a.created) = false := by
        cases hm : a.calls.any sets <;> cases hd : a.created <;> simp_all
      have himp : (a.calls.any sets = true → a.created = true) = True := by
        apply eq_true
        intro hm
        cases hd : a.created
        · exact absurd ⟨hm, hd⟩ hcr
        · rfl
      have hvar : upstreamHostVariable t.up conf.requestHost =
          upstreamHostVariable { st.up with host := (hostOf a.calls).getD st.up.host }
            conf.requestHost := hostVariable_congr hhost conf.requestHost
      have hstate : (if a.calls.any sets = true then createRequest conf.requestHost
            { st with up := t.up } else { st with up := t.up }) =
          { st with up := t.up, u := { st.u with requestHost := hostAfter conf st a } } := by
        unfold hostAfter createRequest
        rw [← hvar]
        split <;> rfl
      simp only [hr, hl, hgo, hstate, Bool.not_true, Bool.or_self, Bool.false_eq_true, if_false,
        true_and, himp]
      cases hsel : a.calls.findSome? (accepts env) with
      | none =>
        obtain ⟨hup, -⟩ := hnone hsel
        have hsock : t.up.sockaddr = none := by rw [hup]; exact hfree
        rw [hsock]
        refine ⟨fun _ => rfl, ?_⟩
        intro hcon
        cases ho : a.original with
        | none => rfl
        | some o => simp [ho] at hcon
      | some c =>
        obtain ⟨hup, -⟩ := (hsome c hsel).1 (hc c hsel)
        have hsock : t.up.sockaddr = some c.addr := by rw [hup]
        have htls : t.up.tls = c.tls := by rw [hup]
        have hsni : t.up.sni = if c.sni.length ≠ 0 then c.sni else st.up.sni := by rw [hup]
        simp only [hsock, reduceCtorEq, false_implies, not_true_eq_false, and_true, true_implies,
          takePeer, htls, hsni, actual, connected, Option.map_some]
        cases c.tls with
        | false => simp
        | true =>
          by_cases hlen : c.sni.length = 0
          · simp [hlen]
          · simp [hlen]
  · have hstop : (!a.resumed || a.localResponse) = true := by
      cases hr : a.resumed <;> cases hl : a.localResponse <;> simp_all
    rw [if_pos hstop]
    exact ⟨fun hcon => absurd ⟨hcon.1, hcon.2.1⟩ hres, fun _ => rfl⟩

theorem hostAfter_eq_iff (conf : Upstream) (st : State Addr) (a : Attempt Addr) :
    hostAfter conf st a = expectedHost conf a ↔ HostKept conf st a := by
  unfold hostAfter expectedHost HostKept
  cases hh : hostOf a.calls with
  | none =>
    simp only [true_implies, Option.getD_none]
    split <;> exact Iff.rfl
  | some value =>
    have hsets : a.calls.any sets = true := by
      have hmem : value ∈ a.calls.filterMap hostSet := List.mem_of_getLast? hh
      obtain ⟨c, hc, hv⟩ := List.mem_filterMap.mp hmem
      rw [List.any_eq_true]
      refine ⟨c, hc, ?_⟩
      cases c with
      | setUpstream => cases hv
      | setHost => rfl
      | setHeader => rfl
    simp [hsets, upstreamHostVariable]

theorem actual_eq_iff {conf : Upstream} {st : State Addr} {a : Attempt Addr}
    (h : selected env a.calls = none → a.original.isSome) :
    actual conf st a (selected env a.calls) = expected env conf a ↔
      PeerKept env conf st a ∧ HostKept conf st a := by
  rw [← hostAfter_eq_iff]
  unfold expected PeerKept
  cases hsel : selected env a.calls with
  | none =>
    obtain ⟨addr, ho⟩ := Option.isSome_iff_exists.mp (h hsel)
    simp only [actual, ho, Option.map_some, Option.some.injEq, Used.mk.injEq, true_and]
    constructor
    · rintro ⟨hssl, hschema, hsni, hhost⟩
      refine ⟨⟨hssl, hschema, ?_⟩, hhost⟩
      intro hon
      rw [hssl, hon] at hsni
      simpa using hsni
    · rintro ⟨⟨hssl, hschema, hname⟩, hhost⟩
      refine ⟨hssl, hschema, ?_, hhost⟩
      rw [hssl]
      cases hon : conf.ssl with
      | false => rfl
      | true => simp [hname hon]
  | some c =>
    simp only [actual, Option.some.injEq, Used.mk.injEq, true_and]
    apply and_congr_left'
    cases c.tls with
    | false => simp
    | true =>
      by_cases hsni : c.sni = []
      · simp [hsni]
      · have hlen : c.sni.length ≠ 0 := fun h0 => hsni (List.eq_nil_of_length_eq_zero h0)
        simp [hsni]

/-- One attempt: what it connects with and what its refused calls leave. -/
theorem attempt_clean_iff (conf : Upstream) {st : State Addr} (a : Attempt Addr)
    (h : st.ended = true ∨ st.up.sockaddr = none) :
    Clean env conf a (attempt env conf st a).2 ↔ Unspoiled env conf st a := by
  cases hend : st.ended with
  | true =>
    have hrep : (attempt env conf st a).2 = ⟨none, []⟩ := by
      unfold attempt
      rw [if_pos hend]
    rw [hrep]
    simp [Clean, Unspoiled, hend]
  | false =>
    have hfree : st.up.sockaddr = none := h.resolve_left (by simp [hend])
    obtain ⟨hnone, hsome⟩ := folded_free env a.calls ⟨st.up, false, []⟩ hfree
    unfold Clean Unspoiled
    rw [(report_eq conf hend a).1]
    unfold resumeSelect
    simp only [hend, true_implies]
    by_cases hc : ∀ c, a.calls.findSome? (accepts env) = some c → c.complete = true
    · have hquiet : Harmless ⟨st.up, false, []⟩ (a.calls.foldl (guestCall env) ⟨st.up, false, []⟩) := by
        cases hsel : a.calls.findSome? (accepts env) with
        | none => exact (hnone hsel).2
        | some c => exact ((hsome c hsel).1 (hc c hsel)).2
      have hsame : ∀ p ∈ (a.calls.foldl (guestCall env) ⟨st.up, false, []⟩).refused, p.1 = p.2 := by
        intro p hp
        exact (hquiet p hp).resolve_left (by simp)
      obtain ⟨hcon, hnot⟩ := report_used conf hend hfree hc
      rw [and_iff_right hsame, and_iff_right hc]
      by_cases hconn : Connects env a
      · rw [hcon hconn, ← actual_eq_iff hconn.2.2.2]
        simp only [hconn, true_implies]
        constructor
        · intro hall
          cases hact : actual conf st a (selected env a.calls) with
          | none =>
            obtain ⟨-, -, -, horig⟩ := hconn
            cases hsel : selected env a.calls with
            | none =>
              obtain ⟨addr, ho⟩ := Option.isSome_iff_exists.mp (horig hsel)
              rw [hsel] at hact
              simp [actual, ho] at hact
            | some c =>
              rw [hsel] at hact
              simp [actual] at hact
          | some used => exact (hall used hact).symm
        · intro heq used hused
          rw [← heq, hused]
      · rw [hnot hconn]
        simp [hconn]
    · constructor
      · rintro ⟨hsame, -⟩
        push Not at hc
        obtain ⟨c, hsel, hbad⟩ := hc
        obtain ⟨p, hp, hne⟩ := (hsome c hsel).2 (by simpa using hbad)
        exact absurd (hsame p hp) hne
      · rintro ⟨hall, -⟩
        exact absurd hall hc

/-- The peer selected in an attempt is forgotten with it. -/
theorem attempt_free (conf : Upstream) (st : State Addr) (a : Attempt Addr)
    (h : st.ended = true ∨ st.up.sockaddr = none) :
    (attempt env conf st a).1.ended = true ∨ (attempt env conf st a).1.up.sockaddr = none := by
  have hfree : ∀ s : State Addr, (freePeer s).up.sockaddr = none := by
    intro s
    unfold freePeer
    cases hs : s.up.sockaddr <;> simp [hs]
  unfold attempt
  split
  · exact h
  · simp only
    split
    · exact .inl rfl
    · exact .inr (hfree _)

/-- Every attempt of a request is clean exactly when none finds something of
another peer or loses an SNI for lack of memory. -/
theorem attempts_clean_iff (env : Env Addr) (conf : Upstream) (attempts : List (Attempt Addr)) :
    Meets (attempt env conf) (fun st a => Clean env conf a (attempt env conf st a).2) (init conf)
        attempts ↔
      Meets (attempt env conf) (Unspoiled env conf) (init conf) attempts := by
  apply meets_congr (attempt env conf) (P := fun st => st.ended = true ∨ st.up.sockaddr = none)
  · intro st a h
    exact attempt_clean_iff conf a h
  · intro st a h
    exact attempt_free conf st a h
  · exact .inr rfl

/-- A peer selected with TLS, an SNI and a Host, then an attempt without a
selection: the configured plain-text peer is spoken to with TLS, under the other
peer's names. -/
theorem names_of_earlier_peer :
    ¬ Meets (attempt (⟨fun _ _ => some 7, fun _ => none⟩ : Env ℕ) ⟨false, .http, [1], [2]⟩)
      (fun st a => Clean ⟨fun _ _ => some 7, fun _ => none⟩ ⟨false, .http, [1], [2]⟩ a
        (attempt ⟨fun _ _ => some 7, fun _ => none⟩ ⟨false, .http, [1], [2]⟩ st a).2)
      (init ⟨false, .http, [1], [2]⟩)
      [⟨[.setUpstream 0 [49] 443 1 [97] true true, .setHost [98]], true, false, true, some 0, none,
          false⟩,
        ⟨[], true, false, true, some 0, none, false⟩] := by
  rintro ⟨-, ⟨-, hsecond⟩, -⟩
  have h := hsecond _ rfl
  exact absurd h (by decide)

end NgxWasm.Http.UpstreamAttempts
