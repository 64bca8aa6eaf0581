import NgxWasm.Http.RespBody
import NgxWasm.Http.ResponseFilter

/-!
# The end of the stream as the filters see it

`ngx_http_wasm_body_filter_resume` gathers the flags of a chunk in
`resp_chunk_eof`, `ngx_http_proxy_wasm_on_response_body` replaces the flag by a
comparison of lengths when there is a Content-Length, and the host calls of a
filter measure the chunk that they leave. A chunk is the list of its buffers.
`events` lists what happened to the body, and the state of the body is computed
from it; `final` records whether the chunk that came in carries `last_buf`. The
lengths stop at the first flag of a chunk.
-/

namespace NgxWasm.Http.EndOfStream
open NgxWasm.Lib Run NgxWasm.Wasm.Chain NgxWasm.ProxyWasm NgxWasm.ProxyWasm.Resume
open NgxWasm.ProxyWasm.ResumeSweep

/-! ### Body of a response -/

/-- `rctx->resp_content_length_n` (-1 after a header filter without a Content-Length),
`resp_chunk_len` and `resp_chunk_eof`; `chunk` is `resp_chunk` as it came in or as it was
measured last. -/
structure Stream where
  contentLength : ℤ
  chunk : List Buf
  chunkLen : ℕ
  chunkEof : Bool
  final : Bool

/-- A filter that is reached in the response body step. -/
structure Offer where
  filter : ℕ
  len : ℕ
  called : Bool
  endOfStream : Bool
  final : Bool
  deriving Repr, DecidableEq

inductive BodyEvent where
  /-- A filter's `on_response_headers` finds this Content-Length. -/
  | headers (contentLength : ℤ)
  /-- The body filter is resumed on a chain. -/
  | arrive (chain : List Buf)
  /-- `on_response_body` of a filter, with the chunks that its host calls leave. -/
  | body (i : ℕ) (edits : List (List Buf))

def newStream : Stream := ⟨0, [], 0, false, false⟩

/-- `resp_chunk_eof` as `ngx_http_proxy_wasm_on_response_body` sets it. -/
def bodyEof (s : Stream) : Bool :=
  if 0 < s.contentLength then (s.chunkLen : ℤ) = s.contentLength else s.chunkEof

def calls (s : Stream) : Bool := s.chunkLen ≠ 0 || bodyEof s

/-- The end of `ngx_http_wasm_set_resp_body` and `ngx_http_wasm_prepend_resp_body`. -/
def measure (s : Stream) (chunk : List Buf) : Stream :=
  { s with
    chunk
    chunkLen := (chainLen chunk).1
    chunkEof := s.chunkEof || (chainLen chunk).2 }

/-- `ngx_http_proxy_wasm_on_response_body` -/
def onResponseBody (s : Stream) (i : ℕ) (edits : List (List Buf)) : Stream × Option Offer :=
  let t := { s with chunkEof := bodyEof s }
  (if calls s then edits.foldl measure t else t,
    some ⟨i, s.chunkLen, calls s, bodyEof s, s.final⟩)

/-- `ngx_http_wasm_body_filter_resume` up to the filters. -/
def arrive (main : Bool) (s : Stream) (chain : List Buf) : Stream :=
  { s with
    chunk := chain
    chunkLen := (RespBody.resumeLen main chain).1
    chunkEof := s.chunkEof || (RespBody.resumeLen main chain).2
    final := chain.any Buf.lastBuf }

def bodyStep (main : Bool) (s : Stream) : BodyEvent → Stream × Option Offer
  | .headers contentLength => ({ s with contentLength := contentLength }, none)
  | .arrive chain => (arrive main s chain, none)
  | .body i edits => onResponseBody s i edits

/-! ### Filters -/

/-- What a filter answers, the Content-Length that its `on_response_headers` finds, and what
its `on_response_body` makes of the chunk. -/
structure Turn where
  guest : Guest
  contentLength : ℤ
  edits : List (List Buf)

structure Response where
  chain : Chain
  enteredHeaderFilter : Bool
  respBufs : List Buf
  events : List BodyEvent

/-- A chunk, the answers to it and to the buffers, and what
`ngx_http_wasm_body_filter_buffer` returns and leaves in the buffers. -/
structure Chunk where
  chain : List Buf
  turn : ℕ → Turn
  buffered : ResponseFilter.Buffered
  bufs : List Buf
  turnAgain : ℕ → Turn
  sent : Bool

section
variable (main : Bool)

def Response.stream (q : Response) : Stream := (exec (bodyStep main) newStream q.events).1

def Response.offers (q : Response) : List (Option Offer) :=
  (exec (bodyStep main) newStream q.events).2

/-- The body when the step that started at entry `e` reaches entry `i`. -/
def streamAt (s : Stream) (turn : ℕ → Turn) (e i : ℕ) : Stream :=
  (exec (bodyStep main) s ((List.range' e (i - e)).map fun j => .body j (turn j).edits)).1

/-- What the chain gets from entry `i`: no filter may pause on the buffers. -/
def answers (q : Response) (step : Step) (turn : ℕ → Turn) (i : ℕ) : Guest :=
  if step = .respBody then
    ResponseFilter.onResponseBody (calls (streamAt main (q.stream main) turn q.chain.execIndex i))
      (!q.respBufs.isEmpty) (turn i).guest
  else (turn i).guest

def eventOf (turn : ℕ → Turn) : Step × ℕ → Option BodyEvent
  | (.respHeaders, i) => some (.headers (turn i).contentLength)
  | (.respBody, i) => some (.body i (turn i).edits)
  | _ => none

/-- A call into the chain that may run the step, with what happened to the body. -/
def enter (q : Response) (step : Step) (call : (ℕ → Guest) → Chain × Rc) (turn : ℕ → Turn) :
    Response :=
  let chain := (call (answers main q step turn)).1
  let new := (ran chain).drop (ran q.chain).length
  { q with chain := chain, events := q.events ++ new.filterMap (eventOf turn) }

/-- `ngx_http_wasm_header_filter_handler` -/
def headerFilterHandler (q : Response) (turn : ℕ → Turn) : Response :=
  if q.enteredHeaderFilter then q
  else
    enter main { q with enteredHeaderFilter := true } .respHeaders
      (fun guest => opHandler q.chain .headerFilter guest) turn

/-- `ngx_http_wasm_body_filter_resume` -/
def bodyFilterResume (q : Response) (chain : List Buf) (turn : ℕ → Turn) : Response :=
  let q := { q with events := q.events ++ [.arrive chain] }
  if q.chain.respBuffering then q
  else
    enter main q .respBody
      (fun guest => opHandler { q.chain with action := .cont } .bodyFilter guest) turn

def sendChunk (q : Response) (sent : Bool) : Response :=
  if sent && (q.stream main).chunkEof then { q with respBufs := [] } else q

def resumeBuffered (q : Response) (turn : ℕ → Turn) : Response :=
  let q := { q with chain := { q.chain with respBuffering := false } }
  bodyFilterResume main q q.respBufs turn

def bufferChunk (q : Response) (c : Chunk) : Response :=
  let q := { q with respBufs := c.bufs }
  match c.buffered with
  | .error => q
  | .ok =>
    if (q.stream main).chunkEof then sendChunk main (resumeBuffered main q c.turnAgain) c.sent else q
  | .done => sendChunk main (resumeBuffered main q c.turnAgain) c.sent

/-- `ngx_http_wasm_body_filter_handler` -/
def bodyFilterHandler (q : Response) (c : Chunk) : Response :=
  let q := bodyFilterResume main q c.chain c.turn
  if q.chain.respBuffering then bufferChunk main q c else sendChunk main q c.sent

/-! ### Runs -/

inductive Input where
  | headerFilter (turn : ℕ → Turn)
  | chunk (c : Chunk)
  | dispatching (k : ℕ)
  | dispatched (k : ℕ) (failed : Bool) (g : Guest) (pending : Bool) (turn : ℕ → Turn)
  | foreign (k : ℕ) (g : Guest) (pending : Bool) (turn : ℕ → Turn)

def next (q : Response) : Input → Response
  | .headerFilter turn => headerFilterHandler main q turn
  | .chunk c => bodyFilterHandler main q c
  | .dispatching k => { q with chain := (dispatchWait q.chain k).1 }
  | .dispatched k failed g pending turn =>
    enter main q q.chain.step (fun guest => dispatchResume q.chain k failed g pending guest) turn
  | .foreign k g pending turn =>
    enter main q q.chain.step (fun guest => foreignCallback q.chain k g pending guest) turn

def response (pwexecs : List Exec) (inputs : List Input) : Response :=
  inputs.foldl (next main) ⟨newChain pwexecs, false, [], []⟩

end

/-! ### Host calls -/

/-- The stream shows the length and the end of the chunk. -/
def Shows (s : Stream) (st : RespBody.Rctx) : Prop :=
  s.chunkLen = st.respChunkLen ∧ s.chunkEof = st.respChunkEof

theorem measure_shows {s : Stream} {st : RespBody.Rctx} (h : Shows s st) :
    Shows (measure s st.chunk) (RespBody.measure st) := by
  refine ⟨rfl, ?_⟩
  simp only [measure, RespBody.measure, h.2]

theorem dropEmpty_shows {s : Stream} {st : RespBody.Rctx} (h : Shows s st) :
    Shows s (RespBody.dropEmpty st) := by
  unfold RespBody.dropEmpty
  split
  · exact h
  · split
    · exact h
    · split
      · exact h
      · exact h

theorem appendChunk_shows {s : Stream} {st : RespBody.Rctx} (h : Shows s st) (body : Bytes)
    (offset tag : ℕ) (a : Alloc) :
    ∃ edits : List (List Buf),
      Shows (edits.foldl measure s) (RespBody.appendChunk st body offset tag a).1 := by
  unfold RespBody.appendChunk
  dsimp only
  split
  · refine ⟨[_], dropEmpty_shows (measure_shows ?_)⟩
    exact h
  · exact ⟨[], h⟩

theorem newChunk_shows {s : Stream} {st : RespBody.Rctx} (h : Shows s st) (len tag : ℕ)
    (a : Alloc) : Shows s (RespBody.newChunk st len tag a).1 := by
  unfold RespBody.newChunk
  split
  · exact h
  · exact h

theorem setBuffer_shows {s : Stream} {st : RespBody.Rctx} (h : Shows s st) (tag : ℕ)
    (c : RespBody.Call) :
    ∃ edits : List (List Buf),
      Shows (edits.foldl measure s) (RespBody.setBuffer tag st c).1 := by
  unfold RespBody.setBuffer
  cases c.bufType with
  | httpRequestBody => exact ⟨[], h⟩
  | other => exact ⟨[], h⟩
  | httpResponseBody =>
    dsimp only
    split
    · unfold RespBody.prependRespBody
      split
      · exact ⟨[], h⟩
      · dsimp only
        split
        · refine ⟨[_], measure_shows ?_⟩
          exact h
        · exact ⟨[], h⟩
    · unfold RespBody.setRespBody
      split
      · dsimp only
        split
        · exact appendChunk_shows (newChunk_shows h _ tag _) _ _ tag _
        · exact ⟨[], newChunk_shows h _ tag _⟩
      · exact appendChunk_shows h _ _ tag _

/-- Whatever calls of `proxy_set_buffer_bytes` a filter makes, the length and the end of the
stream are those of a sequence of edits. -/
theorem calls_shown (tag : ℕ) (cs : List RespBody.Call) :
    ∀ (s : Stream) (st : RespBody.Rctx), Shows s st →
      ∃ edits : List (List Buf),
        Shows (edits.foldl measure s) (exec (RespBody.setBuffer tag) st cs).1 := by
  induction cs with
  | nil => intro s st h; exact ⟨[], h⟩
  | cons c cs ih =>
    intro s st h
    obtain ⟨first, hfirst⟩ := setBuffer_shows h tag c
    obtain ⟨rest, hrest⟩ := ih _ _ hfirst
    refine ⟨first ++ rest, ?_⟩
    rw [List.foldl_append]
    exact hrest

/-! ### The flag -/

/-- The filter is called exactly for bytes or the end, and told the end of the stream exactly
on the chunk that carries `last_buf`. -/
def Offer.Right (o : Offer) : Prop :=
  (o.called = true → o.endOfStream = o.final) ∧ (o.final = true → o.called = true)

/-- The first flag of the chain is `last_buf`, if there is one in the chain. -/
def EndFirst (chain : List Buf) : Prop :=
  chain.any Buf.lastBuf = true → (chain.find? Buf.flagged).any Buf.lastBuf = true

/-- The bytes up to the first flag. -/
def front : List Buf → Bytes
  | [] => []
  | b :: bs => if b.flagged then b.bytes else b.bytes ++ front bs

/-- What keeps the flag right. With a Content-Length, the chunk that a filter gets has as many
bytes up to its first flag exactly if it is the last one. Without one, nothing follows the end of
the stream, no end of a part hides it, and no edit puts an end into a chunk that is not the last
one. Only before the body may a header filter take a Content-Length back. -/
def KeepsFlag (s : Stream) : BodyEvent → Prop
  | .headers contentLength =>
    contentLength ≤ 0 → 0 < s.contentLength →
      s = { newStream with contentLength := s.contentLength }
  | .arrive chain =>
    s.contentLength ≤ 0 →
      EndFirst chain ∧ (s.final = true → chain.any Buf.lastBuf = true)
  | .body _ edits =>
    if 0 < s.contentLength then
      ((front s.chunk).length : ℤ) = s.contentLength ↔ s.final = true
    else s.final = false → ∀ chunk ∈ edits, chunk.any Buf.flagged = false

/-- The length is that of the chunk up to its first flag; without a Content-Length the flag is
that of the chunk. -/
structure Kept (s : Stream) : Prop where
  measured : s.chunkLen = (front s.chunk).length
  flagged : s.contentLength ≤ 0 → s.chunkEof = s.final

theorem resumeLen_front (main : Bool) (chain : List Buf) :
    (RespBody.resumeLen main chain).1 = (front chain).length := by
  induction chain with
  | nil => rfl
  | cons b bs ih =>
    rw [RespBody.resumeLen, front]
    cases hl : b.lastBuf with
    | true => simp [Buf.flagged, Buf.size, hl]
    | false =>
      cases hc : b.lastInChain with
      | true => simp [Buf.flagged, Buf.size, hl, hc]
      | false => simp [Buf.flagged, Buf.size, hl, hc, ih]

theorem chainLen_front (chunk : List Buf) : (chainLen chunk).1 = (front chunk).length := by
  induction chunk with
  | nil => rfl
  | cons b bs ih =>
    rw [chainLen, front]
    split
    · rfl
    · rw [List.length_append, ← ih, Buf.size]

theorem resumeLen_eof (chain : List Buf) :
    (RespBody.resumeLen true chain).2 = (chain.find? Buf.flagged).any Buf.lastBuf := by
  induction chain with
  | nil => rfl
  | cons b bs ih =>
    rw [RespBody.resumeLen, List.find?_cons]
    cases hl : b.lastBuf with
    | true => simp [Buf.flagged, hl]
    | false =>
      cases hc : b.lastInChain with
      | true => simp [Buf.flagged, hl, hc]
      | false =>
        simp only [Buf.flagged, hl, hc, Bool.or_self, Bool.false_eq_true, if_false]
        exact ih

theorem find_carries {chain : List Buf}
    (h : (chain.find? Buf.flagged).any Buf.lastBuf = true) : chain.any Buf.lastBuf = true := by
  cases hf : chain.find? Buf.flagged with
  | none => rw [hf] at h; exact absurd h (by simp)
  | some b =>
    rw [hf] at h
    exact List.any_eq_true.mpr ⟨b, List.mem_of_find?_eq_some hf, by simpa using h⟩

theorem chainLen_unflagged {chunk : List Buf} (h : chunk.any Buf.flagged = false) :
    (chainLen chunk).2 = false := by
  induction chunk with
  | nil => rfl
  | cons b bs ih =>
    simp only [List.any_cons, Bool.or_eq_false_iff] at h
    rw [chainLen, h.1]
    simpa using ih h.2

theorem measure_foldl_flagged (edits : List (List Buf)) :
    ∀ s : Stream, (s.final = false → ∀ chunk ∈ edits, chunk.any Buf.flagged = false) →
      s.chunkEof = s.final →
      (edits.foldl measure s).chunkEof = (edits.foldl measure s).final := by
  induction edits with
  | nil => intro s _ h; exact h
  | cons chunk edits ih =>
    intro s hedits h
    have hstep : (measure s chunk).chunkEof = (measure s chunk).final := by
      simp only [measure, h]
      cases hf : s.final with
      | true => simp
      | false =>
        rw [chainLen_unflagged (hedits hf chunk (List.mem_cons_self ..))]
        rfl
    exact ih (measure s chunk) (fun hf c hc => hedits hf c (List.mem_cons_of_mem _ hc)) hstep

theorem measure_foldl_contentLength (edits : List (List Buf)) :
    ∀ s : Stream, (edits.foldl measure s).contentLength = s.contentLength := by
  induction edits with
  | nil => intro s; rfl
  | cons chunk edits ih => intro s; exact ih (measure s chunk)

theorem measure_foldl_measured (edits : List (List Buf)) :
    ∀ s : Stream, s.chunkLen = (front s.chunk).length →
      (edits.foldl measure s).chunkLen = (front (edits.foldl measure s).chunk).length := by
  induction edits with
  | nil => intro s h; exact h
  | cons chunk edits ih => intro s _; exact ih (measure s chunk) (chainLen_front chunk)

theorem bodyEof_final {s : Stream} {i : ℕ} {edits : List (List Buf)} (h : Kept s)
    (he : KeepsFlag s (.body i edits)) : bodyEof s = s.final := by
  unfold bodyEof
  by_cases hpos : 0 < s.contentLength
  · simp only [KeepsFlag, if_pos hpos, ← h.measured] at he
    rw [if_pos hpos]
    cases hf : s.final with
    | true => simpa using he.mpr hf
    | false =>
      have hne : (s.chunkLen : ℤ) ≠ s.contentLength := by
        intro heq
        rw [he.mp heq] at hf
        exact absurd hf (by simp)
      simpa using hne
  · rw [if_neg hpos]
    exact h.flagged (by omega)

theorem arrive_flagged {s : Stream} {chain : List Buf} (hfirst : EndFirst chain)
    (hafter : s.chunkEof = true → chain.any Buf.lastBuf = true) :
    (arrive true s chain).chunkEof = (arrive true s chain).final := by
  simp only [arrive, resumeLen_eof]
  cases hc : chain.any Buf.lastBuf with
  | true => rw [hfirst hc, Bool.or_true]
  | false =>
    have hno : (chain.find? Buf.flagged).any Buf.lastBuf = false := by
      cases hf : (chain.find? Buf.flagged).any Buf.lastBuf with
      | false => rfl
      | true => rw [find_carries hf] at hc; exact absurd hc (by simp)
    have hopen : s.chunkEof = false := by
      cases hs : s.chunkEof with
      | false => rfl
      | true => rw [hafter hs] at hc; exact absurd hc (by simp)
    rw [hno, hopen]
    rfl

theorem headers_kept {s : Stream} {contentLength : ℤ} (h : Kept s)
    (he : KeepsFlag s (.headers contentLength)) : Kept { s with contentLength } where
  measured := h.measured
  flagged := by
    intro hle
    by_cases hpos : 0 < s.contentLength
    · have hnew := he hle hpos
      rw [hnew]
      rfl
    · exact h.flagged (by omega)

theorem body_kept {s : Stream} {i : ℕ} {edits : List (List Buf)} (h : Kept s)
    (he : KeepsFlag s (.body i edits)) : Kept (onResponseBody s i edits).1 := by
  have hbody := bodyEof_final h he
  unfold onResponseBody
  dsimp only
  split
  · refine ⟨measure_foldl_measured edits _ h.measured, ?_⟩
    intro hle
    rw [measure_foldl_contentLength] at hle
    rw [KeepsFlag, if_neg (not_lt.mpr hle)] at he
    exact measure_foldl_flagged edits { s with chunkEof := bodyEof s } he hbody
  · exact ⟨h.measured, fun _ => hbody⟩

theorem bodyStep_kept {s : Stream} {e : BodyEvent} (h : Kept s) (he : KeepsFlag s e) :
    Kept (bodyStep true s e).1 := by
  cases e with
  | headers contentLength => exact headers_kept h he
  | arrive chain =>
    refine ⟨resumeLen_front true chain, ?_⟩
    intro hle
    have hopen : s.chunkEof = s.final := h.flagged hle
    refine arrive_flagged (he hle).1 ?_
    rw [hopen]
    exact (he hle).2
  | body i edits => exact body_kept h he

theorem bodyStep_right {s : Stream} {e : BodyEvent} (h : Kept s) (he : KeepsFlag s e) :
    ∀ o ∈ (bodyStep true s e).2, o.Right := by
  intro o ho
  cases e with
  | headers contentLength => simp [bodyStep] at ho
  | arrive chain => simp [bodyStep] at ho
  | body i edits =>
    have hbody := bodyEof_final h he
    simp only [bodyStep, onResponseBody, Option.mem_some_iff] at ho
    subst ho
    refine ⟨fun _ => hbody, fun hf => ?_⟩
    simp only [calls, hbody] at hf ⊢
    simp [hf]

/-- In a response of the main request whose body keeps the flag right at every step, each
`on_response_body` is told the end of the stream exactly on the chunk with `last_buf`. -/
theorem end_of_stream_right (pwexecs : List Exec) (inputs : List Input)
    (h : Meets (bodyStep true) KeepsFlag newStream (response true pwexecs inputs).events) :
    ∀ o, some o ∈ (response true pwexecs inputs).offers true → o.Right := by
  have hall := (forall_outputs_iff (bodyStep true) (fun r => ∀ o ∈ r, o.Right)
    (response true pwexecs inputs).events newStream).mpr
    (meets_mono_inv (bodyStep true) (P := Kept) (fun _ _ hs he => bodyStep_right hs he)
      (fun _ _ hs he => bodyStep_kept hs he) _ newStream ⟨rfl, fun _ => rfl⟩ h)
  intro o ho
  exact hall (some o) ho o rfl

def bytes (data : Bytes) (lastBuf : Bool) : List Buf :=
  [⟨some data.length, true, data, [], nofun, 0, false, lastBuf, lastBuf⟩]

/-- A filter that continues and edits nothing. -/
def passes (contentLength : ℤ) (_ : ℕ) : Turn := ⟨returns .cont, contentLength, []⟩

/-- Two chunks of two bytes go through one filter. -/
def twoChunks (contentLength : ℤ) : List Input :=
  [.headerFilter (passes contentLength),
    .chunk ⟨bytes [1, 2] false, passes contentLength, .ok, [], passes contentLength, true⟩,
    .chunk ⟨bytes [3, 4] true, passes contentLength, .ok, [], passes contentLength, true⟩]

/-- One chunk that is the whole body; each filter replaces its bytes by as many. -/
def oneChunk : List Input :=
  let turn (_ : ℕ) : Turn := ⟨returns .cont, 2, [bytes [5, 6] true]⟩
  [.headerFilter turn, .chunk ⟨bytes [1, 2] true, turn, .ok, [], turn, true⟩]

/-- Two filters and a Content-Length; then one filter, two chunks and none. -/
theorem end_of_stream_right_framed :
    Offer.Right ⟨1, 2, true, true, true⟩ ∧ Offer.Right ⟨0, 2, true, true, true⟩ := by
  constructor
  · refine end_of_stream_right [created 1, created 2] oneChunk ?_ _ (by decide)
    have hevents : (response true [created 1, created 2] oneChunk).events =
        [.headers 2, .headers 2, .arrive (bytes [1, 2] true), .body 0 [bytes [5, 6] true],
          .body 1 [bytes [5, 6] true]] := rfl
    rw [hevents]
    refine ⟨fun h => absurd h (by decide), fun h => absurd h (by decide),
      fun h => absurd h (by decide), ?_, ?_, trivial⟩
    all_goals
      rw [KeepsFlag, if_pos (by decide)]
      decide
  · refine end_of_stream_right [created 1] (twoChunks (-1)) ?_ _ (by decide)
    have hevents : (response true [created 1] (twoChunks (-1))).events =
        [.headers (-1), .arrive (bytes [1, 2] false), .body 0 [], .arrive (bytes [3, 4] true),
          .body 0 []] := rfl
    rw [hevents]
    refine ⟨fun _ h => absurd h (by decide),
      fun _ => ⟨by simp [EndFirst, bytes], fun h => absurd h (by decide)⟩, ?_,
      fun _ => ⟨fun _ => rfl, fun _ => rfl⟩, ?_, trivial⟩
    all_goals
      rw [KeepsFlag, if_neg (by decide)]
      simp

/-- With `Content-Length: 4` the second chunk, which ends the response, is not the end. -/
theorem content_length_hides_end :
    ¬ ∀ o, some o ∈ (response true [created 1] (twoChunks 4)).offers true → o.Right := by
  intro h
  have hlast : some ⟨0, 2, true, false, true⟩ ∈
      (response true [created 1] (twoChunks 4)).offers true := by decide
  exact absurd ((h _ hlast).1 rfl) (by decide)

end NgxWasm.Http.EndOfStream
