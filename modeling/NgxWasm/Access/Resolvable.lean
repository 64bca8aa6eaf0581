import NgxWasm.Access.Decision

/-!
# Addresses that the resolver hands out

`ngx_proxy_wasm_hfuncs_resolve_handler` (ngx_proxy_wasm_foreign_call.c 115-139) gives a
filter an address once `ngx_wasm_acl_add_addr` has taken it. The address is recorded in
its own family and `ngx_cidr_match` looks for an IPv4-mapped one in the other.
-/

namespace NgxWasm.Access.Resolvable

open NgxWasm NgxWasm.Lib.LongestMatch NgxWasm.Lib.Run NgxWasm.Access.Check NgxWasm.Access.Decision

/-- The address that `ngx_wasm_acl_check_host` reads in a host text. -/
def writtenAddress (names : Names) (host : Bytes) : Option Sockaddr :=
  match host, hostName host with
  | _ :: _, some name =>
    match names.inet name with
    | some v4 => some (.inet v4)
    | none => (names.inet6 name).map .inet6
  | _, _ => none

section
variable {T4 : Table 32 Tag} {T6 : Table 128 Tag} {cidrMatch : Sockaddr → List Cidr → Bool}

/-- The checks take the address, in its own form and written as a host. -/
def Usable (cidrMatch : Sockaddr → List Cidr → Bool) (acl : Acl T4 T6) (sa : Sockaddr) : Prop :=
  checkAddr cidrMatch acl sa = .ok ∧
    ∀ (names : Names) (host : Bytes), writtenAddress names host = some sa →
      checkHost cidrMatch names acl host = .ok

/-- A mapped address is allowed by an IPv6 rule or its IPv4 form was recorded before. -/
def Recognised (acl : Acl T4 T6) (sa : Sockaddr) : Prop :=
  normal sa = sa ∨ treeLookup acl.ctx sa = some .allow ∨
    ∃ c ∈ acl.recordedAddrs, MatchesCidr (normal sa) c

theorem checkHost_address {names : Names} {host : Bytes} {sa : Sockaddr} (acl : Acl T4 T6)
    (h : writtenAddress names host = some sa) :
    checkHost cidrMatch names acl host = checkAddr cidrMatch acl sa := by
  cases host with
  | nil => simp [writtenAddress] at h
  | cons b rest =>
    rw [checkHost, if_neg (List.cons_ne_nil b rest)]
    cases hname : hostName (b :: rest) with
    | none => simp [writtenAddress, hname] at h
    | some name =>
      simp only [writtenAddress, hname] at h
      cases h4 : names.inet name with
      | some v4 =>
        rw [h4] at h
        rw [← Option.some.inj h]
        simp only [h4]
      | none =>
        cases h6 : names.inet6 name with
        | some v6 =>
          rw [h4, h6] at h
          rw [← Option.some.inj h]
          simp only [h4, h6]
        | none =>
          rw [h4, h6] at h
          cases h

theorem usable_iff {acl : Acl T4 T6} {sa : Sockaddr} :
    Usable cidrMatch acl sa ↔ checkAddr cidrMatch acl sa = .ok := by
  constructor
  · intro h
    exact h.1
  · intro h
    refine ⟨h, ?_⟩
    intro names host hhost
    rw [checkHost_address acl hhost]
    exact h

/-! ### What an addition leaves -/

theorem addAddr_taken {acl : Acl T4 T6} {sa : Sockaddr} {push : Bool}
    (h : (addAddr acl sa push).2 = .ok) :
    treeLookup acl.ctx sa ≠ some .deny ∧
      ∃ cidr, sockaddrToCidr sa = some cidr ∧
        (addAddr acl sa push).1 = { acl with recordedAddrs := acl.recordedAddrs ++ [cidr] } := by
  simp only [addAddr] at h ⊢
  by_cases hdeny : treeLookup acl.ctx sa = some .deny
  · rw [if_pos hdeny] at h
    cases h
  · rw [if_neg hdeny] at h ⊢
    refine ⟨hdeny, ?_⟩
    cases hcidr : sockaddrToCidr sa with
    | none =>
      rw [hcidr] at h
      cases h
    | some cidr =>
      simp only [hcidr] at h ⊢
      cases push with
      | false => cases h
      | true => exact ⟨cidr, rfl, rfl⟩

theorem recorded_kept (calls : List Call) (acl : Acl T4 T6) {c : Cidr}
    (h : c ∈ acl.recordedAddrs) :
    c ∈ (exec (step cidrMatch) acl calls).1.recordedAddrs :=
  (run_recorded c calls acl).mpr (.inl h)

/-- Only an address of its own form is found in the CIDR that it leaves. -/
theorem matches_own_iff {sa : Sockaddr} {cidr : Cidr} (h : sockaddrToCidr sa = some cidr) :
    MatchesCidr (normal sa) cidr ↔ normal sa = sa := by
  cases sa with
  | inet a =>
    cases h
    exact iff_of_true (and_full a) rfl
  | inet6 b =>
    cases h
    by_cases hmapped : isMapped b
    · have hnormal : normal (.inet6 b) = .inet (htonl (low b)) := if_pos hmapped
      rw [hnormal]
      constructor
      · intro hm
        exact hm.elim
      · intro heq
        cases heq
    · have hnormal : normal (.inet6 b) = .inet6 b := if_neg hmapped
      rw [hnormal]
      exact iff_of_true BitVec.and_allOnes rfl
  | unix => cases h

/-- Checked right after its addition. -/
theorem checkAddr_added
    (hcidr : ∀ sa cs, cidrMatch sa cs = true ↔ ∃ c ∈ cs, MatchesCidr (normal sa) c)
    {acl : Acl T4 T6} {sa : Sockaddr} {push : Bool} (h : (addAddr acl sa push).2 = .ok) :
    checkAddr cidrMatch (addAddr acl sa push).1 sa = .ok ↔ Recognised acl sa := by
  obtain ⟨hdeny, cidr, hown, hacl⟩ := addAddr_taken h
  rw [checkAddr_ok, hacl, hcidr, Recognised]
  simp only [List.mem_append, List.mem_singleton, or_and_right, exists_or, exists_eq_left,
    matches_own_iff hown]
  cases hlook : treeLookup acl.ctx sa with
  | none => simp [or_comm]
  | some t =>
    cases t with
    | allow => simp
    | deny => exact absurd hlook hdeny

/-- A check that takes an address goes on taking it. -/
theorem checkAddr_kept
    (hcidr : ∀ sa cs, cidrMatch sa cs = true ↔ ∃ c ∈ cs, MatchesCidr (normal sa) c)
    {acl : Acl T4 T6} {sa : Sockaddr} (h : checkAddr cidrMatch acl sa = .ok)
    (calls : List Call) :
    checkAddr cidrMatch (exec (step cidrMatch) acl calls).1 sa = .ok := by
  rw [checkAddr_ok, run_ctx]
  rcases checkAddr_ok.mp h with hallow | ⟨hnone, hm⟩
  · exact .inl hallow
  · obtain ⟨c, hc, hcm⟩ := (hcidr _ _).mp hm
    exact .inr ⟨hnone, (hcidr _ _).mpr ⟨c, recorded_kept calls acl hc, hcm⟩⟩

end

/-- An address that was added is usable from then on exactly when it is not IPv4-mapped, an
IPv6 rule allows it or a recorded address already stood for its IPv4 form. -/
theorem added_usable_iff {T4 : Table 32 Tag} {T6 : Table 128 Tag}
    {cidrMatch : Sockaddr → List Cidr → Bool}
    (cidr : ∀ sa cs, cidrMatch sa cs = true ↔ ∃ c ∈ cs, MatchesCidr (normal sa) c)
    (acl : Acl T4 T6) (sa : Sockaddr) (push : Bool) (added : (addAddr acl sa push).2 = .ok) :
    (∀ calls : List Call,
        Usable cidrMatch (exec (step cidrMatch) (addAddr acl sa push).1 calls).1 sa) ↔
      Recognised acl sa := by
  rw [← checkAddr_added cidr added]
  constructor
  · intro h
    exact usable_iff.mp (h [])
  · intro h calls
    exact usable_iff.mpr (checkAddr_kept cidr h calls)

theorem plain_six_usable :
    (addAddr (aclInit bothCtx) (.inet6 1) true).2 = .ok ∧
      ((∀ calls : List Call,
        Usable cidrMatchList
          (exec (step cidrMatchList) (addAddr (aclInit bothCtx) (.inet6 1) true).1 calls).1
          (.inet6 1)) ↔ Recognised (aclInit bothCtx) (.inet6 1)) :=
  ⟨by decide, added_usable_iff listTables_provided.cidr (aclInit bothCtx) (.inet6 1) true
    (by decide)⟩

/-- Without any rule, `::ffff:10.0.0.1` is added and refused. -/
theorem mapped_added_refused :
    (addAddr (aclInit (newCtx : Ctx (listTable 32 Tag) (listTable 128 Tag)))
        (.inet6 (mapped (ntohl ⟨10, 0, 0, 1⟩))) true).2 = .ok ∧
      checkAddr cidrMatchList
        (addAddr (aclInit (newCtx : Ctx (listTable 32 Tag) (listTable 128 Tag)))
          (.inet6 (mapped (ntohl ⟨10, 0, 0, 1⟩))) true).1
        (.inet6 (mapped (ntohl ⟨10, 0, 0, 1⟩))) = .declined := by
  decide

end NgxWasm.Access.Resolvable
