import NgxWasm.Http.ConnectionHeader
import NgxWasm.Http.ContentLength
import NgxWasm.Http.HeaderPlaces
import NgxWasm.Http.RequestFraming
import NgxWasm.Lib.Run

/-!
# Local responses (ngx_http_wasm_local_response.c)

`ngx_http_wasm_stash_local_response`, `ngx_http_wasm_discard_local_response` and
`ngx_http_wasm_flush_local_response`, with the memory they take from the pools and hand
back, and the response that a flush fills in.
-/

namespace NgxWasm.Http.LocalResponse

open NgxWasm NgxWasm.ProxyWasm.Pairs NgxWasm.Http.Headers NgxWasm.Http.HeaderSet
open NgxWasm.Http.HeaderRemoval NgxWasm.Http.HeaderPlaces NgxWasm.Lib.Run
open NgxWasm.Http.ConnectionHeader (respConnectionHandler)
open NgxWasm.Http.ContentLength (respContentLengthHandler numberOf)
open NgxWasm.Http.DispatchRequest (offT)

/-! ### The request -/

/-- One allocation of a pool. Memory that is handed out a second time is another one. -/
abbrev Block := ℕ

/-- `local_resp_body`, the link with the bytes of its buffer; their number is an `off_t`. -/
structure Body where
  link : Block
  bytes : Bytes
  fits : bytes.length < 2 ^ 63

/-- `r->headers_out` and the fields of the request that go with it. -/
structure Answer where
  request : ConnectionHeader.Request
  contentLengthN : ℤ
  errStatus : ℕ
  statusLine : Bytes

/-- A response handed to `ngx_http_wasm_send_chain_link`. -/
structure Sent where
  answer : Answer
  bytes : Bytes

/-- `ngx_http_wasm_req_ctx_t` and its request, the allocations so far, those that were
handed back to a pool, and the responses that were sent. -/
structure Ctx where
  enteredHeaderFilter : Bool
  headerSent : Bool
  respContentChosen : Bool
  localRespStatus : ℕ
  localRespReason : Bytes
  localRespReasonData : Option Block
  localRespHeaders : List (Bytes × Bytes)
  localRespHeadersElts : Option Block
  localRespBody : Option Body
  localRespBodyLen : ℤ
  localRespFlushed : Bool
  answer : Answer
  next : Block
  freed : List Block
  sent : List Sent

/-! ### Discard -/

/-- `ngx_pfree`, `ngx_array_destroy` and `ngx_free_chain` of what is there. The pointers
to the reason and to the headers stay. -/
def discard (c : Ctx) : Ctx :=
  { c with
    respContentChosen := false
    localRespStatus := 0
    localRespReason := []
    localRespBodyLen := -1
    localRespBody := none
    freed := c.freed ++ c.localRespReasonData.toList ++ c.localRespHeadersElts.toList ++
      (c.localRespBody.map Body.link).toList }

/-! ### Stash -/

/-- The arguments of a stash. -/
structure Stash where
  status : ℤ
  reason : Bytes
  headers : Option (List (Bytes × Bytes))
  body : Bytes
  fits : body.length + 1 < 2 ^ 63

/-- What the pools grant a stash; a header is an element and two strings. -/
structure Room where
  reason : Bool
  elts : Bool
  header : ℕ → Bool
  buf : Bool
  link : Bool

/-- `ddd <reason>`. -/
def reasonText (call : Stash) : Bytes := offT call.status.toNat ++ ascii " " ++ call.reason

def storeReason (room : Room) (call : Stash) (c : Ctx) : Except Ctx Ctx :=
  if call.reason = [] then .ok c
  else if room.reason then
    .ok { c with
      localRespReason := reasonText call
      localRespReasonData := some c.next
      next := c.next + 1 }
  else .error c

def pushHeaders (room : Room) : ℕ → List (Bytes × Bytes) → Ctx → Except Ctx Ctx
  | _, [], c => .ok c
  | i, h :: headers, c =>
    if room.header i then
      pushHeaders room (i + 1) headers { c with localRespHeaders := c.localRespHeaders ++ [h] }
    else .error c

/-- `ngx_array_init` clears the array before it asks for its memory. -/
def storeHeaders (room : Room) (call : Stash) (c : Ctx) : Except Ctx Ctx :=
  if room.elts then
    pushHeaders room 0 (call.headers.getD [])
      { c with
        localRespHeaders := []
        localRespHeadersElts := some c.next
        next := c.next + 1 }
  else .error { c with localRespHeaders := [], localRespHeadersElts := none }

/-- The body and one LF. -/
def bodyBytes (call : Stash) : Bytes := if call.body = [] then [] else call.body ++ [10]

theorem bodyBytes_fits (call : Stash) : (bodyBytes call).length < 2 ^ 63 := by
  rw [bodyBytes]
  split
  · decide
  · rw [List.length_append]
    exact call.fits

def storeBody (room : Room) (call : Stash) (c : Ctx) : Except Ctx Ctx :=
  if call.body = [] then .ok c
  else if room.buf && room.link then
    .ok { c with
      localRespBody := some ⟨c.next, bodyBytes call, bodyBytes_fits call⟩
      localRespBodyLen := (bodyBytes call).length
      next := c.next + 1 }
  else .error c

/-- The stores one after the other, up to the `goto fail`. -/
def store (room : Room) (call : Stash) (c : Ctx) : Except Ctx Ctx :=
  match storeReason room call c with
  | .error c => .error c
  | .ok c =>
    match storeHeaders room call c with
    | .error c => .error c
    | .ok c => storeBody room call c

def stash (room : Room) (call : Stash) (c : Ctx) : Rc × Ctx :=
  if c.enteredHeaderFilter then (.abort, c)
  -- local response already stashed
  else if c.localRespStatus ≠ 0 then (.busy, c)
  else if call.status < 100 ∨ 999 < call.status then (.declined, c)
  else
    match store room call { c with localRespStatus := call.status.toNat } with
    | .ok c => (.ok, { c with respContentChosen := true })
    | .error c => (.error, discard c)

/-! ### Flush -/

/-- What a flush meets: whether `ngx_http_discard_request_body` returns `NGX_OK`, the
pools of its headers, the type `ngx_http_set_content_type` gives a response without one
(or its failure), the memory of the length and the answer of
`ngx_http_wasm_send_chain_link`. -/
structure FlushEnv where
  requestBody : Bool
  header : ℕ → Pool
  contentType : Option Bytes
  length : Bool
  lengthPool : Pool
  send : Rc

abbrev Filled := Except Fault (Rc × Answer)

def Answer.withHeaders (a : Answer) (headers : HeaderMap) : Answer :=
  { a with request := { a.request with headers := headers } }

def setRespHeader (pool : Pool) (key value : Bytes) (a : Answer) : Filled :=
  match prepare pool respHeadersHandlers key (some value) .set with
  | none => .ok (.error, a)
  | some (h, hv) =>
    match h.setter with
    | .respConnection =>
      match respConnectionHandler hv a.request with
      | .error fault => .error fault
      | .ok (rc, request) => .ok (rc, { a with request := request })
    | .respContentLength =>
      match respContentLengthHandler pool h.offset hv ⟨a.request.headers, a.contentLengthN⟩ with
      | .error fault => .error fault
      | .ok (rc, s) => .ok (rc, { a.withHeaders s.headers with contentLengthN := s.contentLengthN })
    | _ =>
      match handle pool false h hv a.request.headers with
      | .error fault => .error fault
      | .ok (rc, headers) => .ok (rc, a.withHeaders headers)

def setRespHeaders (pool : ℕ → Pool) : ℕ → List (Bytes × Bytes) → Answer → Filled
  | _, [], a => .ok (.ok, a)
  | i, (key, value) :: headers, a =>
    match setRespHeader (pool i) key value a with
    | .error fault => .error fault
    | .ok (.ok, a) => setRespHeaders pool (i + 1) headers a
    | .ok (_, a) => .ok (.error, a)

def setRespStatus (c : Ctx) (a : Answer) : Answer :=
  { a with
    request := { a.request with status := c.localRespStatus }
    errStatus := 0
    statusLine := c.localRespReason }

def httpSetContentType (env : FlushEnv) (a : Answer) : Rc × Answer :=
  if a.request.headers.contentType ≠ [] then (.ok, a)
  else
    match env.contentType with
    | none => (.error, a)
    | some type => (.ok, a.withHeaders { a.request.headers with contentType := type })

def setRespContentLength (env : FlushEnv) (cl : ℤ) (a : Answer) : Filled :=
  if 0 ≤ a.contentLengthN ∧ a.contentLengthN = cl then .ok (.ok, a)
  else if env.length then
    setRespHeader env.lengthPool (ascii "Content-Length") (offT cl.toNat) a
  else .ok (.error, a)

/-- From `ngx_http_wasm_set_resp_status` up to the send. -/
def fill (env : FlushEnv) (c : Ctx) : Filled :=
  match setRespHeaders env.header 0 c.localRespHeaders (setRespStatus c c.answer) with
  | .error fault => .error fault
  | .ok (.ok, a) =>
    match if c.localRespBodyLen ≠ 0 then httpSetContentType env a else (.ok, a) with
    | (.ok, a) =>
      if 0 ≤ c.localRespBodyLen then setRespContentLength env c.localRespBodyLen a
      else .ok (.ok, a)
    | r => .ok r
  | r => r

def flush (env : FlushEnv) (c : Ctx) : Except Fault (Rc × Ctx) :=
  if c.localRespStatus = 0 ∨ c.headerSent then .ok (.declined, c)
  else if c.localRespFlushed then .ok (.abort, c)
  else if !env.requestBody then .ok (.error, c)
  else
    match fill env c with
    | .error fault => .error fault
    | .ok (.ok, a) =>
      .ok (env.send, { c with
        answer := a
        localRespStatus := 0
        localRespFlushed := true
        sent := c.sent ++ [⟨a, ((c.localRespBody.map Body.bytes).getD [])⟩] })
    | .ok (_, a) => .ok (.error, { c with answer := a })

/-! ### Runs -/

/-- The calls, and what other code does to the request between them. -/
inductive Op where
  | stash (room : Room) (call : Stash)
  | discard
  | flush (env : FlushEnv)
  | elsewhere (enteredHeaderFilter headerSent respContentChosen : Bool) (answer : Answer)

def step (c : Ctx) : Op → Ctx × Except Fault Rc
  | .stash room call => ((stash room call c).2, .ok (stash room call c).1)
  | .discard => (discard c, .ok .ok)
  | .flush env =>
    match flush env c with
    | .error fault => (c, .error fault)
    | .ok (rc, c) => (c, .ok rc)
  | .elsewhere enteredHeaderFilter headerSent respContentChosen answer =>
    ({ c with
      enteredHeaderFilter := enteredHeaderFilter
      headerSent := headerSent
      respContentChosen := respContentChosen
      answer := answer }, .ok .ok)

/-! ### Memory -/

/-- No block was handed back twice, the three pointers are at three blocks, and the body's
was not handed back. -/
structure Memory (freed : List Block) (reason elts link : Option Block) (next : Block) : Prop where
  nodup : freed.Nodup
  pointers : (reason.toList ++ elts.toList ++ link.toList).Nodup
  known : ∀ b ∈ freed, b < next
  below : ∀ b ∈ reason.toList ++ elts.toList ++ link.toList, b < next
  live : ∀ b ∈ link.toList, b ∉ freed

def Ctx.Memory (c : Ctx) : Prop :=
  LocalResponse.Memory c.freed c.localRespReasonData c.localRespHeadersElts
    (c.localRespBody.map Body.link) c.next

/-- The block of a pointer was not handed back. -/
def Unfreed (freed : List Block) (p : Option Block) : Prop := ∀ b ∈ p.toList, b ∉ freed

section
variable {freed : List Block} {reason elts link : Option Block} {next : Block}

theorem Memory.fresh_reason (m : Memory freed reason elts link next) :
    Memory freed (some next) elts link (next + 1) := by
  have hsub : ∀ b ∈ elts.toList ++ link.toList, b < next := fun b hb =>
    m.below b (by rw [List.append_assoc]; exact List.mem_append_right _ hb)
  have hnodup : (elts.toList ++ link.toList).Nodup := by
    have h := m.pointers
    rw [List.append_assoc] at h
    exact h.of_append_right
  refine ⟨m.nodup, ?_, fun b hb => Nat.lt_succ_of_lt (m.known b hb), ?_, m.live⟩
  · rw [List.append_assoc]
    exact List.nodup_cons.mpr ⟨fun h => Nat.lt_irrefl _ (hsub next h), hnodup⟩
  · intro b hb
    rw [List.append_assoc] at hb
    rcases List.mem_cons.mp hb with rfl | hb
    · exact Nat.lt_succ_self _
    · exact Nat.lt_succ_of_lt (hsub b hb)

/-- The headers' array is initialized, with its memory or without. -/
theorem Memory.drop_elts (m : Memory freed reason elts link next) :
    Memory freed reason none link next := by
  have hsub : (reason.toList ++ (none : Option Block).toList ++ link.toList).Sublist
      (reason.toList ++ elts.toList ++ link.toList) := by
    apply List.Sublist.append _ (List.Sublist.refl _)
    exact List.Sublist.append (List.Sublist.refl _) (List.nil_sublist _)
  exact ⟨m.nodup, m.pointers.sublist hsub, m.known, fun b hb => m.below b (hsub.subset hb), m.live⟩

theorem Memory.fresh_elts (m : Memory freed reason elts link next) :
    Memory freed reason (some next) link (next + 1) := by
  have m := m.drop_elts
  have hperm : (reason.toList ++ (some next).toList ++ link.toList).Perm
      (next :: (reason.toList ++ (none : Option Block).toList ++ link.toList)) := by
    simp
  refine ⟨m.nodup, ?_, fun b hb => Nat.lt_succ_of_lt (m.known b hb), ?_, m.live⟩
  · rw [hperm.nodup_iff]
    exact List.nodup_cons.mpr ⟨fun h => Nat.lt_irrefl _ (m.below next h), m.pointers⟩
  · intro b hb
    rcases List.mem_cons.mp (hperm.subset hb) with rfl | hb
    · exact Nat.lt_succ_self _
    · exact Nat.lt_succ_of_lt (m.below b hb)

theorem Memory.fresh_link (m : Memory freed reason elts link next) :
    Memory freed reason elts (some next) (next + 1) := by
  have hsub : ∀ b ∈ reason.toList ++ elts.toList, b < next := fun b hb =>
    m.below b (List.mem_append_left _ hb)
  refine ⟨m.nodup, ?_, fun b hb => Nat.lt_succ_of_lt (m.known b hb), ?_, ?_⟩
  · apply List.Nodup.append m.pointers.of_append_left (List.nodup_singleton _)
    intro b hb hlink
    obtain rfl := List.mem_singleton.mp hlink
    exact Nat.lt_irrefl _ (hsub _ hb)
  · intro b hb
    rcases List.mem_append.mp hb with hb | hb
    · exact Nat.lt_succ_of_lt (hsub b hb)
    · obtain rfl := List.mem_singleton.mp hb
      exact Nat.lt_succ_self _
  · intro b hb hfreed
    obtain rfl := List.mem_singleton.mp hb
    exact Nat.lt_irrefl _ (m.known _ hfreed)

/-- A discard hands back what the pointers are at. -/
theorem Memory.discard (m : Memory freed reason elts link next) (hreason : Unfreed freed reason)
    (helts : Unfreed freed elts) :
    Memory (freed ++ reason.toList ++ elts.toList ++ link.toList) reason elts none next := by
  have heq : freed ++ reason.toList ++ elts.toList ++ link.toList =
      freed ++ (reason.toList ++ elts.toList ++ link.toList) := by
    simp only [List.append_assoc]
  rw [heq]
  refine ⟨?_, ?_, ?_, ?_, ?_⟩
  · apply List.Nodup.append m.nodup m.pointers
    intro b hb hp
    rcases List.mem_append.mp hp with hp | hp
    · rcases List.mem_append.mp hp with hp | hp
      · exact hreason b hp hb
      · exact helts b hp hb
    · exact m.live b hp hb
  · rw [Option.toList_none, List.append_nil]
    exact m.pointers.of_append_left
  · intro b hb
    rcases List.mem_append.mp hb with hb | hb
    · exact m.known b hb
    · exact m.below b hb
  · intro b hb
    rw [Option.toList_none, List.append_nil] at hb
    exact m.below b (List.mem_append_left _ hb)
  · intro b hb
    cases hb

theorem unfreed_fresh (m : Memory freed reason elts link next) : Unfreed freed (some next) := by
  intro b hb hfreed
  obtain rfl := List.mem_singleton.mp hb
  exact Nat.lt_irrefl _ (m.known _ hfreed)

theorem unfreed_none : Unfreed freed none := by
  intro b hb
  cases hb

end

/-! ### What a stash stores -/

/-- A memory request of the stash is refused. -/
def Refused (room : Room) (call : Stash) : Prop :=
  call.reason ≠ [] ∧ room.reason = false ∨ room.elts = false ∨
    (∃ i < (call.headers.getD []).length, room.header i = false) ∨
    call.body ≠ [] ∧ (room.buf && room.link) = false

/-- What neither the stores nor a failure touches. -/
structure Untouched (c c' : Ctx) : Prop where
  status : c'.localRespStatus = c.localRespStatus
  chosen : c'.respContentChosen = c.respContentChosen
  flushed : c'.localRespFlushed = c.localRespFlushed
  answer : c'.answer = c.answer
  freed : c'.freed = c.freed
  sent : c'.sent = c.sent

theorem Untouched.refl (c : Ctx) : Untouched c c := ⟨rfl, rfl, rfl, rfl, rfl, rfl⟩

theorem Untouched.trans {c c' c'' : Ctx} (h : Untouched c c') (h' : Untouched c' c'') :
    Untouched c c'' where
  status := h'.status.trans h.status
  chosen := h'.chosen.trans h.chosen
  flushed := h'.flushed.trans h.flushed
  answer := h'.answer.trans h.answer
  freed := h'.freed.trans h.freed
  sent := h'.sent.trans h.sent

structure StoredAs (call : Stash) (c c' : Ctx) : Prop where
  untouched : Untouched c c'
  memory : c'.Memory
  reason : c'.localRespReason = if call.reason = [] then c.localRespReason else reasonText call
  headers : c'.localRespHeaders = call.headers.getD []
  nobody : call.body = [] → c'.localRespBody = c.localRespBody ∧
    c'.localRespBodyLen = c.localRespBodyLen
  body : call.body ≠ [] → ∃ x, c'.localRespBody = some x ∧ x.bytes = bodyBytes call ∧
    c'.localRespBodyLen = x.bytes.length

/-- The pointers a failure hands to the discard: those from before the call where it
did not come to the store. -/
structure FailedAs (room : Room) (call : Stash) (c c' : Ctx) : Prop where
  untouched : Untouched c c'
  memory : c'.Memory
  refused : Refused room call
  reason : (call.reason = [] ∨ room.reason = false → Unfreed c.freed c.localRespReasonData) →
    Unfreed c.freed c'.localRespReasonData
  elts : (call.reason ≠ [] ∧ room.reason = false → Unfreed c.freed c.localRespHeadersElts) →
    Unfreed c.freed c'.localRespHeadersElts

section
variable {room : Room} {call : Stash} {c : Ctx}

theorem pushHeaders_cases (room : Room) (headers : List (Bytes × Bytes)) :
    ∀ (i : ℕ) (c : Ctx),
      pushHeaders room i headers c =
          .ok { c with localRespHeaders := c.localRespHeaders ++ headers } ∨
        (∃ stored, pushHeaders room i headers c = .error { c with localRespHeaders := stored }) ∧
          ∃ j < headers.length, room.header (i + j) = false := by
  induction headers with
  | nil =>
    intro i c
    left
    rw [pushHeaders, List.append_nil]
  | cons h headers ih =>
    intro i c
    rw [pushHeaders]
    cases hroom : room.header i with
    | false => exact .inr ⟨⟨c.localRespHeaders, rfl⟩, 0, Nat.zero_lt_succ _, hroom⟩
    | true =>
      rw [if_pos rfl]
      rcases ih (i + 1) { c with localRespHeaders := c.localRespHeaders ++ [h] } with
        hok | ⟨⟨stored, herror⟩, j, hj, hrefused⟩
      · left
        rw [hok]
        simp only [List.append_assoc, List.singleton_append]
      · refine .inr ⟨⟨stored, herror⟩, j + 1, Nat.succ_lt_succ hj, ?_⟩
        rw [show i + (j + 1) = i + 1 + j by omega]
        exact hrefused

theorem storeBody_cases (m : c.Memory) (hheaders : c.localRespHeaders = call.headers.getD []) :
    (∃ c', storeBody room call c = .ok c' ∧ Untouched c c' ∧ c'.Memory ∧
        c'.localRespReason = c.localRespReason ∧ c'.localRespHeaders = call.headers.getD [] ∧
        (call.body = [] → c'.localRespBody = c.localRespBody ∧
          c'.localRespBodyLen = c.localRespBodyLen) ∧
        (call.body ≠ [] → ∃ x, c'.localRespBody = some x ∧ x.bytes = bodyBytes call ∧
          c'.localRespBodyLen = x.bytes.length)) ∨
      storeBody room call c = .error c ∧ call.body ≠ [] ∧ (room.buf && room.link) = false := by
  rw [storeBody]
  by_cases hbody : call.body = []
  · rw [if_pos hbody]
    exact .inl ⟨c, rfl, Untouched.refl c, m, rfl, hheaders, fun _ => ⟨rfl, rfl⟩,
      fun h => absurd hbody h⟩
  · rw [if_neg hbody]
    cases hroom : room.buf && room.link with
    | false => exact .inr ⟨rfl, hbody, rfl⟩
    | true =>
      left
      exact ⟨_, rfl, ⟨rfl, rfl, rfl, rfl, rfl, rfl⟩, Memory.fresh_link m, rfl, hheaders,
        fun h => absurd h hbody, fun _ => ⟨_, rfl, rfl, rfl⟩⟩

theorem store_cases (room : Room) (call : Stash) (m : c.Memory) :
    (∃ c', store room call c = .ok c' ∧ StoredAs call c c') ∨
      ∃ c', store room call c = .error c' ∧ FailedAs room call c c' := by
  have hbehind : ∀ c₁ : Ctx, storeReason room call c = .ok c₁ → Untouched c c₁ → c₁.Memory →
      c₁.localRespReason = (if call.reason = [] then c.localRespReason else reasonText call) →
      c₁.localRespBody = c.localRespBody → c₁.localRespBodyLen = c.localRespBodyLen →
      ((call.reason = [] ∨ room.reason = false → Unfreed c.freed c.localRespReasonData) →
        Unfreed c.freed c₁.localRespReasonData) →
      (∃ c', store room call c = .ok c' ∧ StoredAs call c c') ∨
        ∃ c', store room call c = .error c' ∧ FailedAs room call c c' := by
    intro c₁ hstore hu m₁ hreason hbody hlen hunfreed
    have hfresh : Unfreed c.freed (some c₁.next) := by
      rw [← hu.freed]
      exact unfreed_fresh m₁
    have hinit : ∀ {headers elts next}, Untouched c { c₁ with
        localRespHeaders := headers
        localRespHeadersElts := elts
        next := next } := hu.trans ⟨rfl, rfl, rfl, rfl, rfl, rfl⟩
    rw [store, hstore]
    dsimp only
    rw [storeHeaders]
    cases helts : room.elts with
    | false =>
      exact .inr ⟨_, rfl, hinit, Memory.drop_elts m₁, .inr (.inl helts), hunfreed,
        fun _ => unfreed_none⟩
    | true =>
      rw [if_pos rfl]
      rcases pushHeaders_cases room (call.headers.getD []) 0
          { c₁ with
            localRespHeaders := []
            localRespHeadersElts := some c₁.next
            next := c₁.next + 1 } with hok | ⟨⟨stored, herror⟩, j, hj, hrefused⟩
      · rw [hok]
        dsimp only
        rcases storeBody_cases
            (c := { c₁ with
              localRespHeaders := [] ++ call.headers.getD []
              localRespHeadersElts := some c₁.next
              next := c₁.next + 1 }) (Memory.fresh_elts m₁) rfl with
          ⟨c', hbodyOk, hu', m', hreason', hheaders, hnobody, hbody'⟩ | ⟨herror, hne, hrefused⟩
        · left
          refine ⟨c', hbodyOk, hinit.trans hu', m', hreason'.trans hreason, hheaders, ?_, hbody'⟩
          intro h
          obtain ⟨h₁, h₂⟩ := hnobody h
          exact ⟨h₁.trans hbody, h₂.trans hlen⟩
        · right
          exact ⟨_, herror, hinit, Memory.fresh_elts m₁, .inr (.inr (.inr ⟨hne, hrefused⟩)), hunfreed,
            fun _ => hfresh⟩
      · right
        rw [herror]
        rw [Nat.zero_add] at hrefused
        exact ⟨_, rfl, hinit, Memory.fresh_elts m₁, .inr (.inr (.inl ⟨j, hj, hrefused⟩)), hunfreed,
          fun _ => hfresh⟩
  by_cases hreason : call.reason = []
  · apply hbehind c _ (Untouched.refl c) m _ rfl rfl
    · intro h
      exact h (.inl hreason)
    · rw [storeReason, if_pos hreason]
    · rw [if_pos hreason]
  · cases hroom : room.reason with
    | true =>
      rw [hroom] at hbehind
      apply hbehind { c with
          localRespReason := reasonText call
          localRespReasonData := some c.next
          next := c.next + 1 } _ ⟨rfl, rfl, rfl, rfl, rfl, rfl⟩ (Memory.fresh_reason m) _ rfl rfl
      · intro _
        exact unfreed_fresh m
      · rw [storeReason, if_neg hreason, if_pos hroom]
      · rw [if_neg hreason]
    | false =>
      right
      refine ⟨c, ?_, Untouched.refl c, m, .inl ⟨hreason, hroom⟩, ?_, ?_⟩
      · rw [store, storeReason, if_neg hreason, hroom]
        rfl
      · intro h
        exact h (.inr hroom)
      · intro h
        exact h ⟨hreason, hroom⟩

end

/-! ### The stashed response -/

structure Response where
  status : ℕ
  reason : Bytes
  headers : List (Bytes × Bytes)
  bytes : Bytes

/-- What the request has stashed. -/
def stashed (c : Ctx) : Option Response :=
  if c.localRespStatus = 0 then none
  else some ⟨c.localRespStatus, c.localRespReason, c.localRespHeaders,
    (c.localRespBody.map Body.bytes).getD []⟩

/-- What a stash is to put there. -/
def response (call : Stash) : Response where
  status := call.status.toNat
  reason := if call.reason = [] then [] else reasonText call
  headers := call.headers.getD []
  bytes := bodyBytes call

structure Sound (c : Ctx) : Prop where
  memory : c.Memory
  once : c.sent.length ≤ if c.localRespFlushed then 1 else 0
  idle : c.localRespFlushed = false → c.localRespStatus = 0 →
    c.localRespReason = [] ∧ c.localRespBody = none
  nobody : c.localRespFlushed = false → c.localRespBody = none →
    c.localRespBodyLen = 0 ∨ c.localRespBodyLen = -1
  length : c.localRespFlushed = false → ∀ x, c.localRespBody = some x →
    c.localRespBodyLen = x.bytes.length

/-- A stash comes to its stores. -/
def Entered (call : Stash) (c : Ctx) : Prop :=
  c.enteredHeaderFilter = false ∧ c.localRespStatus = 0 ∧ 100 ≤ call.status ∧ call.status ≤ 999

/-- The condition on a stash: where it fails there is no content chosen, and the pointers
it hands to the discard are at memory that was not handed back. -/
def StashOk (room : Room) (call : Stash) (c : Ctx) : Prop :=
  Entered call c → Refused room call →
    c.respContentChosen = false ∧
      (call.reason = [] ∨ room.reason = false → Unfreed c.freed c.localRespReasonData) ∧
      (call.reason ≠ [] ∧ room.reason = false → Unfreed c.freed c.localRespHeadersElts)

/-- A stash puts its response there, or nothing. -/
def StashDoes (room : Room) (call : Stash) (c : Ctx) : Prop :=
  if (stash room call c).1 = .ok then
    c.localRespFlushed = false → stashed (stash room call c).2 = some (response call)
  else stashed (stash room call c).2 = stashed c ∧
    (stash room call c).2.respContentChosen = c.respContentChosen

section
variable {room : Room} {call : Stash} {c : Ctx}

theorem stashed_discard (c : Ctx) : stashed (discard c) = none := by
  exact if_pos rfl

theorem discard_sound (hs : Sound c) (hreason : Unfreed c.freed c.localRespReasonData)
    (helts : Unfreed c.freed c.localRespHeadersElts) : Sound (discard c) where
  memory := Memory.discard hs.memory hreason helts
  once := hs.once
  idle := fun _ _ => ⟨rfl, rfl⟩
  nobody := fun _ _ => .inr rfl
  length := by
    intro _ x hx
    cases hx

theorem stash_left (h : ¬ Entered call c) :
    (stash room call c).1 ≠ .ok ∧ (stash room call c).2 = c := by
  rw [stash]
  split
  · exact ⟨by simp, rfl⟩
  · next hentered =>
    split
    · exact ⟨by simp, rfl⟩
    · next hstatus =>
      split
      · exact ⟨by simp, rfl⟩
      · next hrange =>
        rw [not_or] at hrange
        refine absurd ⟨by simpa using hentered, by simpa using hstatus, ?_, ?_⟩ h
        · omega
        · omega

theorem stash_entered (h : Entered call c) :
    stash room call c =
      match store room call { c with localRespStatus := call.status.toNat } with
      | .ok c => (.ok, { c with respContentChosen := true })
      | .error c => (.error, discard c) := by
  obtain ⟨hentered, hstatus, hlow, hhigh⟩ := h
  rw [stash, hentered]
  simp only [Bool.false_eq_true, if_false]
  rw [if_neg (by simp [hstatus]), if_neg (by omega)]

/-- The request once its local response has the status. -/
def Ctx.withStatus (c : Ctx) (status : ℕ) : Ctx := { c with localRespStatus := status }

theorem StoredAs.sound {c' : Ctx} {status : ℕ} (hs : Sound c) (hpos : status ≠ 0)
    (h : StoredAs call (c.withStatus status) c') :
    Sound { c' with respContentChosen := true } where
  memory := h.memory
  once := by
    show c'.sent.length ≤ if c'.localRespFlushed then 1 else 0
    rw [h.untouched.sent, h.untouched.flushed]
    exact hs.once
  idle := by
    intro _ hzero
    exact absurd (h.untouched.status.symm.trans hzero) hpos
  nobody := by
    intro hf hnone
    show c'.localRespBodyLen = 0 ∨ c'.localRespBodyLen = -1
    by_cases hbody : call.body = []
    · obtain ⟨hsame, hlen⟩ := h.nobody hbody
      rw [hlen]
      exact hs.nobody (h.untouched.flushed.symm.trans hf) (hsame.symm.trans hnone)
    · obtain ⟨x, hx, _⟩ := h.body hbody
      cases hx.symm.trans hnone
  length := by
    intro hf x hx
    show c'.localRespBodyLen = x.bytes.length
    by_cases hbody : call.body = []
    · obtain ⟨hsame, hlen⟩ := h.nobody hbody
      rw [hlen]
      exact hs.length (h.untouched.flushed.symm.trans hf) x (hsame.symm.trans hx)
    · obtain ⟨y, hy, _, hlen⟩ := h.body hbody
      rw [hlen, Option.some.inj (hy.symm.trans hx)]

theorem StoredAs.response {c' : Ctx} (hreason : c.localRespReason = [])
    (hnone : c.localRespBody = none) (hpos : call.status.toNat ≠ 0)
    (h : StoredAs call (c.withStatus call.status.toNat) c') :
    stashed { c' with respContentChosen := true } = some (response call) := by
  have hstatus : c'.localRespStatus = call.status.toNat := h.untouched.status
  have htext : c'.localRespReason = if call.reason = [] then [] else reasonText call := by
    rw [h.reason, show (c.withStatus call.status.toNat).localRespReason = [] from hreason]
  have hbytes : (c'.localRespBody.map Body.bytes).getD [] = bodyBytes call := by
    by_cases hbody : call.body = []
    · obtain ⟨hsame, _⟩ := h.nobody hbody
      rw [hsame.trans hnone, bodyBytes, if_pos hbody]
      rfl
    · obtain ⟨x, hx, hxb, _⟩ := h.body hbody
      rw [hx]
      exact hxb
  show (if c'.localRespStatus = 0 then none
    else some (Response.mk c'.localRespStatus c'.localRespReason c'.localRespHeaders
      ((c'.localRespBody.map Body.bytes).getD []))) = _
  rw [hstatus, if_neg hpos, h.headers, hbytes, htext, LocalResponse.response]

/-- A failure leaves what a discard leaves. -/
theorem FailedAs.sound {c' : Ctx} {status : ℕ} (hs : Sound c)
    (hreason : call.reason = [] ∨ room.reason = false → Unfreed c.freed c.localRespReasonData)
    (helts : call.reason ≠ [] ∧ room.reason = false → Unfreed c.freed c.localRespHeadersElts)
    (h : FailedAs room call (c.withStatus status) c') : Sound (discard c') where
  memory := by
    have hfreed : c'.freed = c.freed := h.untouched.freed
    apply Memory.discard h.memory
    · rw [hfreed]
      exact h.reason hreason
    · rw [hfreed]
      exact h.elts helts
  once := by
    show c'.sent.length ≤ if c'.localRespFlushed then 1 else 0
    rw [h.untouched.sent, h.untouched.flushed]
    exact hs.once
  idle := fun _ _ => ⟨rfl, rfl⟩
  nobody := fun _ _ => .inr rfl
  length := by
    intro _ x hx
    cases hx

theorem stash_spec (hs : Sound c) (hcond : StashOk room call c) :
    Sound (stash room call c).2 ∧ StashDoes room call c := by
  by_cases hentered : Entered call c
  · have hstash := @stash_entered room _ _ hentered
    have hpos : call.status.toNat ≠ 0 := by
      have hlow := hentered.2.2.1
      omega
    rcases store_cases room call (c := c.withStatus call.status.toNat) hs.memory
      with ⟨c', hstore, h⟩ | ⟨c', hstore, h⟩
    · have hok : stash room call c = (.ok, { c' with respContentChosen := true }) := by
        rw [hstash, show store room call { c with localRespStatus := call.status.toNat } = .ok c'
          from hstore]
      rw [StashDoes, hok, if_pos rfl]
      refine ⟨h.sound hs hpos, fun hf => ?_⟩
      obtain ⟨hreason, hnone⟩ := hs.idle hf hentered.2.1
      exact h.response hreason hnone hpos
    · have herror : stash room call c = (.error, discard c') := by
        rw [hstash, show store room call { c with localRespStatus := call.status.toNat } = .error c'
          from hstore]
      obtain ⟨hchosen, hreason, helts⟩ := hcond hentered h.refused
      rw [StashDoes, herror, if_neg (by simp)]
      refine ⟨h.sound hs hreason helts, ?_, hchosen.symm⟩
      rw [stashed_discard, stashed, if_pos hentered.2.1]
  · obtain ⟨hrc, hsame⟩ := stash_left hentered
    rw [StashDoes, if_neg hrc, hsame]
    exact ⟨hs, rfl, rfl⟩

end

end NgxWasm.Http.LocalResponse
