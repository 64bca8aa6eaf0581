import NgxWasm.ProxyWasm.RequestSteps

/-!
# The response filters (ngx_http_wasm_filter_module.c)

The header filter enters the response headers step once and ignores what it
returns; the body filter enters the response body step for the chunks. Both
steps, and those of the request, are entered again by completions. A chunk
stands for its number, its length and the flags of its last buffer. `offers`
records the callbacks of the response; no function reads it.
-/

namespace NgxWasm.Http.ResponseFilter
open NgxWasm.ProxyWasm NgxWasm.ProxyWasm.Resume NgxWasm.ProxyWasm.ResumeSweep

/-! ### Data -/

structure Part where
  id : ℕ
  len : ℕ
  lastBuf : Bool
  lastInChain : Bool
  deriving Repr, DecidableEq

inductive Offer where
  | headers (i : ℕ)
  | body (i : ℕ) (ids : List ℕ)
  deriving Repr, DecidableEq

/-- The fields of `ngx_http_wasm_req_ctx_t` that the two filters use, and the chain. -/
structure Response where
  chain : Chain
  enteredHeaderFilter : Bool
  respChunk : List Part
  respChunkLen : ℕ
  respChunkEof : Bool
  respBufs : List Part
  received : ℕ
  offers : List Offer

/-- `r->main`, `rctx->resp_content_length_n` (0 if there is none), and whether
the headers wait for the access phase. -/
structure Setup where
  main : Bool
  contentLength : ℕ
  inAccess : Bool

/-- What `ngx_http_wasm_body_filter_buffer` returns. -/
inductive Buffered where
  | ok
  | done
  | error
  deriving Repr, DecidableEq

/-- A chunk, what the filters answer to it and to the buffers, and whether the
next body filter returns `NGX_OK`. -/
structure Chunk where
  len : ℕ
  lastBuf : Bool
  lastInChain : Bool
  buffered : Buffered
  guest : ℕ → Guest
  guestAgain : ℕ → Guest
  sent : Bool

/-! ### Chunks -/

/-- What a loop over the buffers gets to see: it ends at the first flag. -/
def visible : List Part → List Part
  | [] => []
  | p :: ps => p :: if p.lastBuf || p.lastInChain then [] else visible ps

def chunkLen (ps : List Part) : ℕ := ((visible ps).map Part.len).sum

def chunkEof (setup : Setup) (ps : List Part) : Bool :=
  (visible ps).any fun p => p.lastBuf || p.lastInChain && !setup.main

def ids (q : Response) : List ℕ := (visible q.respChunk).map Part.id

/-! ### Callbacks -/

section

variable (setup : Setup)

/-- `resp_chunk_eof` as `ngx_http_proxy_wasm_on_response_body` sets it. -/
def bodyEof (q : Response) : Bool :=
  if 0 < setup.contentLength then q.respChunkLen = setup.contentLength else q.respChunkEof

/-- Whether `ngx_http_proxy_wasm_on_response_body` calls the guest. -/
def calls (q : Response) : Bool := q.respChunkLen ≠ 0 || bodyEof setup q

/-- `ngx_http_proxy_wasm_on_response_body`: no guest may pause on the buffers. -/
def onResponseBody (called buffered : Bool) (g : Guest) : Guest :=
  if called then { g with ret := if buffered && g.ret = .pause then .cont else g.ret }
  else { g with rc := .ok, ret := .cont, host := none }

def offerOf (called : Bool) (chunk : List ℕ) : Step × ℕ → Option Offer
  | (.respHeaders, i) => some (.headers i)
  | (.respBody, i) => if called then some (.body i chunk) else none
  | _ => none

def answers (q : Response) (step : Step) (guest : ℕ → Guest) (i : ℕ) : Guest :=
  if step = .respBody then onResponseBody (calls setup q) (!q.respBufs.isEmpty) (guest i)
  else guest i

/-- What a call into the chain leaves behind. -/
def record (q : Response) (chain : Chain) : Response :=
  let new := (ran chain).drop (ran q.chain).length
  { q with
    chain := chain
    respChunkEof := if new.any (fun p => p.1 = .respBody) then bodyEof setup q else q.respChunkEof
    offers := q.offers ++ new.filterMap (offerOf (calls setup q) (ids q)) }

/-- A call into the chain that may run the step. -/
def enter (q : Response) (step : Step) (call : (ℕ → Guest) → Chain × Rc) (guest : ℕ → Guest) :
    Response :=
  record setup q (call (answers setup q step guest)).1

/-! ### Filters -/

/-- `ngx_http_wasm_header_filter_handler` -/
def headerFilterHandler (q : Response) (guest : ℕ → Guest) : Response :=
  if q.enteredHeaderFilter then q
  else
    enter setup { q with enteredHeaderFilter := true } .respHeaders
      (fun guest => opHandler q.chain .headerFilter guest) guest

/-- `ngx_http_wasm_body_filter_resume` -/
def bodyFilterResume (q : Response) (parts : List Part) (guest : ℕ → Guest) : Response :=
  let q := { q with
    respChunk := parts
    respChunkLen := chunkLen parts
    respChunkEof := q.respChunkEof || chunkEof setup parts }
  if q.chain.respBuffering then q
  else
    enter setup q .respBody
      (fun guest => opHandler { q.chain with action := .cont } .bodyFilter guest) guest

def sendChunk (q : Response) (sent : Bool) : Response :=
  if sent then
    { q with respChunk := [], respBufs := if q.respChunkEof then [] else q.respBufs }
  else q

/-- The chunk is complete or the buffers are full: the chain is resumed on the buffers. -/
def resumeBuffered (q : Response) (guest : ℕ → Guest) : Response :=
  let q := { q with chain := { q.chain with respBuffering := false } }
  bodyFilterResume setup q q.respBufs guest

def bufferChunk (q : Response) (part : Part) (c : Chunk) : Response :=
  let q := { q with respBufs := q.respBufs ++ [part] }
  match c.buffered with
  | .error => q
  | .ok => if q.respChunkEof then sendChunk (resumeBuffered setup q c.guestAgain) c.sent else q
  | .done => sendChunk (resumeBuffered setup q c.guestAgain) c.sent

/-- `ngx_http_wasm_body_filter_handler` -/
def bodyFilterHandler (q : Response) (c : Chunk) : Response :=
  let part : Part := ⟨q.received, c.len, c.lastBuf, c.lastInChain⟩
  let q := bodyFilterResume setup { q with received := q.received + 1 } [part] c.guest
  if q.chain.respBuffering then bufferChunk setup q part c else sendChunk q c.sent

/-! ### Runs -/

inductive Input where
  | request (phase : Phase) (hasBody : Bool) (guest : ℕ → Guest)
  | headerFilter (guest : ℕ → Guest)
  | chunk (c : Chunk)
  | dispatching (k : ℕ)
  | dispatched (k : ℕ) (failed : Bool) (g : Guest) (pending : Bool) (guest : ℕ → Guest)
  | foreign (k : ℕ) (g : Guest) (pending : Bool) (guest : ℕ → Guest)
  | upstream (step : Step) (guest : ℕ → Guest)

def next (q : Response) : Input → Response
  | .request phase hasBody guest =>
    { q with chain := (RequestSteps.handler setup.inAccess q.chain phase hasBody guest).1 }
  | .headerFilter guest => headerFilterHandler setup q guest
  | .chunk c => bodyFilterHandler setup q c
  | .dispatching k => { q with chain := (dispatchWait q.chain k).1 }
  | .dispatched k failed g pending guest =>
    enter setup q q.chain.step (fun guest => dispatchResume q.chain k failed g pending guest) guest
  | .foreign k g pending guest =>
    enter setup q q.chain.step (fun guest => foreignCallback q.chain k g pending guest) guest
  | .upstream step guest => { q with chain := (upstreamResume q.chain step guest).1 }

def step (q : Response) (c : Input) : Response × Unit := (next setup q c, ())

end

def newResponse (pwexecs : List Exec) : Response :=
  ⟨newChain pwexecs, false, [], 0, false, [], 0, []⟩

end NgxWasm.Http.ResponseFilter
