import NgxWasm.Access.Connections
import NgxWasm.Access.Decision

/-!
# Addresses that the connections of a filter reach

A host name is checked before it is resolved and the resolved address is not, so a
dispatch reaches what the resolver answers. A literal and a selected upstream are
checked against the rules of their own family.
-/

namespace NgxWasm.Access.Reached

open NgxWasm NgxWasm.Lib.LongestMatch NgxWasm.Lib.Run NgxWasm.Access.Decision
open NgxWasm.Access.Connections
open NgxWasm.Access.Check hiding step
open NgxWasm.Http.UpstreamSelect (PeerData proxySetUpstream setUpstream urlOf)

/-- A longest rule that covers the address, in either of its forms, denies it. -/
def Denied (config : List (Cidr × Tag)) (addr : Sockaddr) : Prop :=
  ∃ h, hostAddr addr = some h ∧ Longest (hostRules config) h .deny

/-- The longest rule of the address's own family denies it. -/
def OwnDenied (config : List (Cidr × Tag)) : Sockaddr → Prop
  | .inet a => Longest (rules4 config) (ntohl a) .deny
  | .inet6 b => Longest (rules6 config) b .deny
  | .unix => False

/-- `ngx_parse_url` finds an address where the ACL finds the same one. -/
def ParsesAlike (names : Names) (parseUrl : ParseUrl) : Prop :=
  ∀ url port addr, parseUrl url port = some (some addr) →
    addr = .unix ∨ ∃ name, hostName url = some name ∧
      ((∃ a, names.inet name = some a ∧ addr = .inet a) ∨
        names.inet name = none ∧ ∃ b, names.inet6 name = some b ∧ addr = .inet6 b)

section
variable {T4 : Table 32 Tag} {T6 : Table 128 Tag}
variable {cidrMatch : Sockaddr → List Cidr → Bool} {names : Names} {parseUrl : ParseUrl}

/-- A literal or an upstream that a longest rule denies is one that the rules of its own
family deny; the answer to a dispatch is no address that a longest rule denies. -/
def Unreached (config : List (Cidr × Tag)) (s : State T4 T6) : Input → Prop
  | .dispatchHandler id _ => ∀ sock addr, s.sockets[id]? = some sock → sock.stage = .start →
      sock.addr = some addr → Denied config addr → OwnDenied config addr
  | .resolveHandler id answer alloc => ∀ sock addr, s.sockets[id]? = some sock →
      sock.stage = .resolving → alloc = true → answer.pick = some addr → ¬ Denied config addr
  | .getPeer request => ∀ addr, (s.peers request).sockaddr = some addr →
      Denied config addr → OwnDenied config addr
  | _ => True

/-- What the filter waits to connect to has passed the check of its own family. -/
structure Checked (config : List (Cidr × Tag)) (ctx : Ctx T4 T6) (s : State T4 T6) : Prop where
  ctx_eq : s.acl.ctx = ctx
  socket : ∀ sock ∈ s.sockets, ∀ addr, sock.addr = some addr → ¬ OwnDenied config addr
  peer : ∀ request addr, (s.peers request).sockaddr = some addr → ¬ OwnDenied config addr

/-! ### Checks -/

theorem checkAddr_not_denied {config : List (Cidr × Tag)} (masks : PrefixMasks config)
    (provided : Provided T4 T6 cidrMatch) {ctx : Ctx T4 T6}
    (loaded : insertRules newCtx config = some ctx) {acl : Acl T4 T6} (hctx : acl.ctx = ctx)
    {addr : Sockaddr} (hok : checkAddr cidrMatch acl addr = .ok) : ¬ OwnDenied config addr := by
  obtain ⟨hload4, hload6⟩ := insertRules_load config newCtx ctx loaded
  intro hdeny
  have hlookup : treeLookup acl.ctx addr = some .deny := by
    rw [hctx]
    cases addr with
    | inet a => exact (provided.v4 _ _ masks.v4 hload4 _ _).mpr hdeny
    | inet6 b => exact (provided.v6 _ _ masks.v6 hload6 _ _).mpr hdeny
    | unix => exact hdeny.elim
  simp [checkAddr, hlookup] at hok

/-- A host that is written as an address is checked as that address. -/
theorem checkHost_literal (parses : ParsesAlike names parseUrl) {acl : Acl T4 T6} {host : Bytes}
    {port : ℕ} {addr : Sockaddr} (hparse : parseUrl host port = some (some addr))
    (hok : checkHost cidrMatch names acl host = .ok) :
    addr = .unix ∨ checkAddr cidrMatch acl addr = .ok := by
  rcases parses host port addr hparse with hunix | ⟨name, hname, hliteral⟩
  · exact .inl hunix
  · right
    by_cases hnil : host = []
    · simp [checkHost, hnil] at hok
    · simp only [checkHost, hnil, if_false, hname] at hok
      rcases hliteral with ⟨a, ha, rfl⟩ | ⟨hnone, b, hb, rfl⟩
      · simpa only [ha] using hok
      · simpa only [hnone, hb] using hok

theorem setUpstream_sockaddr {env : Http.UpstreamSelect.Env Sockaddr} {up : PeerData Sockaddr}
    {a : Sockaddr} (addr : Bytes) (port : ℕ) (tls : Bool) (sni : Bytes) (addrAlloc sniAlloc : Bool)
    (h : (setUpstream env up 0 addr port tls sni addrAlloc sniAlloc).1.sockaddr = some a) :
    up.sockaddr = some a ∨ env.forbids 0 a = false := by
  unfold setUpstream at h
  split at h
  · exact .inl h
  · split at h
    · exact .inl h
    · split at h
      · exact .inl h
      · split at h
        · exact .inl h
        next hforbids =>
          right
          split at h
          · cases h
            simpa using hforbids
          · split at h
            · cases h
              simpa using hforbids
            · cases h
              simpa using hforbids

theorem proxySetUpstream_sockaddr {env : Http.UpstreamSelect.Env Sockaddr}
    {up : PeerData Sockaddr} {addr sni : Bytes} {port tls : ℕ} {addrAlloc sniAlloc : Bool}
    {a : Sockaddr}
    (h : (proxySetUpstream env up 0 addr port tls sni addrAlloc sniAlloc).1.sockaddr = some a) :
    up.sockaddr = some a ∨ env.forbids 0 a = false := by
  unfold proxySetUpstream at h
  split at h
  · exact .inl h
  · split at h
    · exact .inl h
    · apply setUpstream_sockaddr addr port (tls == 1) sni addrAlloc sniAlloc
      split at h
      next heq => rw [heq]; exact h
      next heq => rw [heq]; exact h
      next heq => rw [heq]; exact h

/-! ### One step -/

theorem setStage_checked {config : List (Cidr × Tag)} {ctx : Ctx T4 T6} {s : State T4 T6}
    (hs : Checked config ctx s) {id : ℕ} {sock : Socket} (hsock : s.sockets[id]? = some sock)
    (stage : Stage) : Checked config ctx (setStage s id sock stage) where
  ctx_eq := hs.ctx_eq
  socket := by
    intro other hother addr haddr
    rcases List.mem_or_eq_of_mem_set hother with hmem | rfl
    · exact hs.socket other hmem addr haddr
    · exact hs.socket sock (List.mem_of_getElem? hsock) addr haddr
  peer := hs.peer

theorem setPeer_checked {config : List (Cidr × Tag)} {ctx : Ctx T4 T6} {s : State T4 T6}
    (hs : Checked config ctx s) (request : ℕ) {up : PeerData Sockaddr}
    (hup : ∀ addr, up.sockaddr = some addr → ¬ OwnDenied config addr) :
    Checked config ctx (setPeer s request up) where
  ctx_eq := hs.ctx_eq
  socket := hs.socket
  peer := by
    intro r addr haddr
    by_cases hr : r = request
    · subst hr
      simp only [setPeer, Function.update_self] at haddr
      exact hup addr haddr
    · simp only [setPeer, Function.update_of_ne hr] at haddr
      exact hs.peer r addr haddr

/-- Every step keeps what was checked. -/
theorem step_checked {config : List (Cidr × Tag)} (masks : PrefixMasks config)
    (provided : Provided T4 T6 cidrMatch) (parses : ParsesAlike names parseUrl)
    {ctx : Ctx T4 T6} (loaded : insertRules newCtx config = some ctx) {s : State T4 T6}
    (hs : Checked config ctx s) (i : Input) :
    Checked config ctx (step cidrMatch names parseUrl s i).1 := by
  cases i with
  | dispatchHttpCall host tls made =>
    simp only [step, dispatchHttpCall]
    split
    · exact hs
    next hok =>
      split
      · exact hs
      · simp only [tcpInit]
        cases hparse : parseUrl host (if tls then 443 else 80) with
        | none => exact hs
        | some found =>
          refine ⟨hs.ctx_eq, ?_, hs.peer⟩
          intro sock hsock addr haddr
          rcases List.mem_append.mp hsock with hmem | hnew
          · exact hs.socket sock hmem addr haddr
          · rw [List.mem_singleton.mp hnew] at haddr
            simp only at haddr
            rw [haddr] at hparse
            rcases checkHost_literal parses hparse (not_not.mp hok) with rfl | hcheck
            · exact id
            · exact checkAddr_not_denied masks provided loaded hs.ctx_eq hcheck
  | dispatchHandler id resolverStarts =>
    simp only [step, dispatchHandler]
    cases hsock : s.sockets[id]? with
    | none => exact hs
    | some sock =>
      simp only [tcpConnect]
      split
      · exact hs
      · split
        · exact setStage_checked hs hsock _
        · split
          · exact setStage_checked hs hsock _
          · exact setStage_checked hs hsock _
  | resolveHandler id answer alloc =>
    simp only [step, resolveHandler]
    cases hsock : s.sockets[id]? with
    | none => exact hs
    | some sock =>
      simp only
      split
      · exact hs
      · split
        · exact setStage_checked hs hsock _
        · split
          · exact setStage_checked hs hsock _
          · exact setStage_checked hs hsock _
  | resolve name made =>
    simp only [step, resolve]
    split
    · exact hs
    · split
      · exact hs
      · split
        · exact hs
        · exact ⟨hs.ctx_eq, hs.socket, hs.peer⟩
  | hfuncsResolveHandler id answer push =>
    simp only [step, hfuncsResolveHandler]
    split
    · split
      · exact ⟨hs.ctx_eq, hs.socket, hs.peer⟩
      · refine ⟨?_, hs.socket, hs.peer⟩
        rw [addAddr_ctx]
        exact hs.ctx_eq
    · exact hs
  | proxySetUpstream request addr port tls sni addrAlloc sniAlloc =>
    simp only [step]
    apply setPeer_checked hs
    intro a ha
    rcases proxySetUpstream_sockaddr ha with hold | hnew
    · exact hs.peer request a hold
    · apply checkAddr_not_denied masks provided loaded hs.ctx_eq
      simpa [upstreamEnv, Http.UpstreamSelect.Env.forbids] using hnew
  | getPeer request => exact hs
  | freePeer request =>
    apply setPeer_checked hs
    intro a ha
    cases ha

theorem dispatchHandler_opened {s : State T4 T6} {id : ℕ} {resolverStarts : Bool}
    {addr : Sockaddr} :
    (dispatchHandler s id resolverStarts).2 = .opened addr ↔
      ∃ sock, s.sockets[id]? = some sock ∧ sock.stage = .start ∧ sock.addr = some addr := by
  unfold dispatchHandler
  cases hsock : s.sockets[id]? with
  | none => simp
  | some sock =>
    simp only [Option.some.injEq, exists_eq_left', tcpConnect]
    by_cases hstage : sock.stage = .start
    · simp only [hstage, ne_eq, not_true_eq_false, if_false, true_and]
      cases sock.addr with
      | none => cases resolverStarts <;> simp
      | some a => simp
    · simp [hstage]

theorem resolveHandler_opened {s : State T4 T6} {id : ℕ} {answer : Answer} {alloc : Bool}
    {addr : Sockaddr} :
    (resolveHandler s id answer alloc).2 = .opened addr ↔
      ∃ sock, s.sockets[id]? = some sock ∧ sock.stage = .resolving ∧ alloc = true ∧
        answer.pick = some addr := by
  unfold resolveHandler
  cases hsock : s.sockets[id]? with
  | none => simp
  | some sock =>
    simp only [Option.some.injEq, exists_eq_left']
    by_cases hstage : sock.stage = .resolving
    · simp only [hstage, ne_eq, not_true_eq_false, if_false, true_and]
      cases answer.pick with
      | none => simp
      | some a => cases alloc <;> simp
    · simp [hstage]

theorem getPeer_opened {s : State T4 T6} {request : ℕ} {addr : Sockaddr} :
    getPeer s request = .opened addr ↔ (s.peers request).sockaddr = some addr := by
  unfold getPeer
  cases (s.peers request).sockaddr <;> simp

theorem dispatchHttpCall_opens_nothing {s : State T4 T6} {host : Bytes} {tls made : Bool}
    {addr : Sockaddr} :
    (dispatchHttpCall cidrMatch names parseUrl s host tls made).2 ≠ .opened addr := by
  unfold dispatchHttpCall
  split
  · simp
  · split
    · simp
    · split <;> simp

theorem resolve_opens_nothing {s : State T4 T6} {name : Bytes} {made : Bool} {addr : Sockaddr} :
    (resolve cidrMatch names s name made).2 ≠ .opened addr := by
  unfold resolve
  split
  · simp
  · split
    · simp
    · split <;> simp

theorem hfuncsResolveHandler_opens_nothing {s : State T4 T6} {id : ℕ} {answer : Answer}
    {push : Bool} {addr : Sockaddr} :
    (hfuncsResolveHandler s id answer push).2 ≠ .opened addr := by
  unfold hfuncsResolveHandler
  split
  · simp only
    split <;> simp
  · simp

/-- A step opens no connection to a denied address exactly when its input is `Unreached`. -/
theorem opened_iff {config : List (Cidr × Tag)} {ctx : Ctx T4 T6} {s : State T4 T6}
    (hs : Checked config ctx s) (i : Input) :
    (∀ addr, (step cidrMatch names parseUrl s i).2 = .opened addr → ¬ Denied config addr) ↔
      Unreached config s i := by
  cases i with
  | dispatchHandler id resolverStarts =>
    simp only [step, dispatchHandler_opened, Unreached]
    constructor
    · intro h sock addr hsock hstage haddr hdenied
      exact absurd hdenied (h addr ⟨sock, hsock, hstage, haddr⟩)
    · rintro h addr ⟨sock, hsock, hstage, haddr⟩ hdenied
      exact hs.socket sock (List.mem_of_getElem? hsock) addr haddr
        (h sock addr hsock hstage haddr hdenied)
  | resolveHandler id answer alloc =>
    simp only [step, resolveHandler_opened, Unreached]
    constructor
    · intro h sock addr hsock hstage halloc hpick
      exact h addr ⟨sock, hsock, hstage, halloc, hpick⟩
    · rintro h addr ⟨sock, hsock, hstage, halloc, hpick⟩
      exact h sock addr hsock hstage halloc hpick
  | getPeer request =>
    simp only [step, getPeer_opened, Unreached]
    constructor
    · intro h addr haddr hdenied
      exact absurd hdenied (h addr haddr)
    · intro h addr haddr hdenied
      exact hs.peer request addr haddr (h addr haddr hdenied)
  | dispatchHttpCall host tls made =>
    exact iff_of_true (fun addr h => absurd h dispatchHttpCall_opens_nothing) trivial
  | resolve name made =>
    exact iff_of_true (fun addr h => absurd h resolve_opens_nothing) trivial
  | hfuncsResolveHandler id answer push =>
    exact iff_of_true (fun addr h => absurd h hfuncsResolveHandler_opens_nothing) trivial
  | proxySetUpstream request addr port tls sni addrAlloc sniAlloc =>
    simp [step, Unreached]
  | freePeer request => simp [step, Unreached]

end

/-- No connection of a run goes to an address that a longest rule denies, exactly when no
resolver answers a dispatch with one and the two families agree on every literal and
upstream that is connected to. -/
theorem unreached_iff {T4 : Table 32 Tag} {T6 : Table 128 Tag}
    {cidrMatch : Sockaddr → List Cidr → Bool} (provided : Provided T4 T6 cidrMatch)
    {names : Names} {parseUrl : ParseUrl} (parses : ParsesAlike names parseUrl)
    {config : List (Cidr × Tag)} (masks : PrefixMasks config) {ctx : Ctx T4 T6}
    (loaded : insertRules newCtx config = some ctx) (inputs : List Input) :
    (∀ addr, .opened addr ∈ (exec (step cidrMatch names parseUrl) (init ctx) inputs).2 →
        ¬ Denied config addr) ↔
      Meets (step cidrMatch names parseUrl) (Unreached config) (init ctx) inputs := by
  have hinit : Checked config ctx (init ctx) := by
    refine ⟨rfl, ?_, ?_⟩
    · intro sock hsock
      cases hsock
    · intro request addr haddr
      cases haddr
  have hstep : ∀ s i, Checked config ctx s →
      ((∀ addr, (step cidrMatch names parseUrl s i).2 = .opened addr → ¬ Denied config addr) ↔
        Unreached config s i) := fun s i hs => opened_iff hs i
  have hrun := meets_congr (step cidrMatch names parseUrl) hstep
    (fun s i hs => step_checked masks provided parses loaded hs i) inputs (init ctx) hinit
  rw [← hrun, ← forall_outputs_iff (step cidrMatch names parseUrl)
    (fun o => ∀ addr, o = .opened addr → ¬ Denied config addr)]
  constructor
  · intro h o ho addr heq
    rw [heq] at ho
    exact h addr ho
  · intro h addr hmem
    exact h _ hmem addr rfl

/-! ### A name that resolves to a denied address -/

/-- `good.com`. -/
def goodCom : Bytes := [103, 111, 111, 100, 46, 99, 111, 109]

/-- The name is allowed. -/
def nameGood : Names where
  inet := fun _ => none
  inet6 := fun _ => none
  host := fun name => if name = goodCom then some .allow else none

def parseNames : ParseUrl := fun _ _ => some none

theorem parseNames_alike : ParsesAlike nameGood parseNames := by
  intro url port addr h
  cases h

/-- `deny 10.0.0.0/8;` -/
def denyTen : List (Cidr × Tag) := [(.inet ⟨10, 0, 0, 0⟩ ⟨255, 0, 0, 0⟩, .deny)]

def tenCtx : Ctx (listTable 32 Tag) (listTable 128 Tag) :=
  ⟨[(⟨ntohl ⟨10, 0, 0, 0⟩, ntohl ⟨255, 0, 0, 0⟩⟩, .deny)], []⟩

theorem denyTen_masks : PrefixMasks denyTen where
  v4 := by
    intro r hr
    rw [List.mem_singleton.mp hr]
    exact ⟨8, by decide, by decide⟩
  v6 := by
    intro r hr
    cases hr

/-- A dispatch to `good.com` that is answered with the address. -/
def dispatchGood (addr : Sockaddr) : List Input :=
  [.dispatchHttpCall goodCom false true, .dispatchHandler 0 true,
    .resolveHandler 0 ⟨false, [addr], 0⟩ true]

theorem unreached_eight :
    (∀ addr, .opened addr ∈ (exec (step cidrMatchList nameGood parseNames) (init tenCtx)
        (dispatchGood (.inet ⟨8, 8, 8, 8⟩))).2 → ¬ Denied denyTen addr) ↔
      Meets (step cidrMatchList nameGood parseNames) (Unreached denyTen) (init tenCtx)
        (dispatchGood (.inet ⟨8, 8, 8, 8⟩)) := by
  have loaded : insertRules newCtx denyTen = some tenCtx := rfl
  exact unreached_iff listTables_provided parseNames_alike denyTen_masks loaded _

/-- The connection goes to `10.0.0.1`. -/
theorem resolved_address_not_checked :
    ¬ ∀ addr, .opened addr ∈ (exec (step cidrMatchList nameGood parseNames) (init tenCtx)
        (dispatchGood (.inet ⟨10, 0, 0, 1⟩))).2 → ¬ Denied denyTen addr := by
  intro h
  apply h (.inet ⟨10, 0, 0, 1⟩) (by decide)
  refine ⟨mapped (ntohl ⟨10, 0, 0, 1⟩), rfl, hostNet (.inet ⟨10, 0, 0, 0⟩ ⟨255, 0, 0, 0⟩),
    by decide, by decide, ?_⟩
  intro m u hm _
  cases List.mem_singleton.mp hm
  exact BitVec.le_refl _

end NgxWasm.Access.Reached
