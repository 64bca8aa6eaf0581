import NgxWasm.Http.BodyBuffer
import NgxWasm.ProxyWasm.Resume

/-!
# Body filter (ngx_http_wasm_filter_module.c, `ngx_http_wasm_body_filter_handler`)

Chunks of the response run through the filter chain. A filter that pauses has
the chunks buffered until the response ends or the buffers are full, and is then
resumed on the buffers. `received` and `offered` record the bytes handed to the
handler and those on which each filter's callback finished with `CONTINUE`.
-/

namespace NgxWasm.Http.BodyFilter
open NgxWasm.Lib Links NgxWasm.ProxyWasm NgxWasm.ProxyWasm.Resume NgxWasm.Http.BodyBuffer

/-- The location's buffers, whether the request is the main one, and
`rctx->resp_content_length_n` (0 if there is none). -/
structure Setup where
  conf : Conf
  main : Bool
  contentLength : ℕ

structure Filter where
  chain : Chain
  rctx : Rctx
  respChunkEof : Bool
  received : Bytes
  offered : ℕ → Bytes
  ended : Bool
  failed : Bool

/-- A chunk: the allocator's answers if it is buffered, the filters that pause
on it or on the buffers, and whether the next body filter answers `NGX_OK`. -/
structure Chunk where
  bufs : List Buf
  alloc : ℕ → Option ℕ
  pauses : ℕ → Bool
  pausesAgain : ℕ → Bool
  sent : Bool

def newFilter (ictxs : List ℕ) : Filter :=
  ⟨newChain (ictxs.map created), newRctx, false, [], fun _ => [], false, false⟩

section
variable (setup : Setup)

def eofFlag (b : Buf) : Bool := b.lastBuf || b.lastInChain && !setup.main

/-- `resp_chunk_eof` as the loop over a chain sets it. -/
def chainEof (st : Rctx) (a : Option ℕ) : Bool :=
  (upto (flagged st) (links st a)).any fun x => eofFlag setup (st.link x).toBuf

/-- `resp_chunk_eof` as `ngx_http_proxy_wasm_on_response_body` sets it. -/
def bodyEof (len : ℕ) (eof : Bool) : Bool :=
  if 0 < setup.contentLength then len = setup.contentLength else eof

/-- `ngx_http_proxy_wasm_on_response_body` of a filter that wants to pause or not:
it is called for bytes or at the end, and may not pause on the buffers. -/
def onResponseBody (len : ℕ) (eof buffered pause : Bool) : Guest :=
  returns (if (len ≠ 0 || eof) && pause && !buffered then .pause else .cont)

def continued (evs : List Event) (k : ℕ) : Bool :=
  evs.any fun e => match e with
    | .ran r => r.i = k && r.action = .cont
    | _ => false

def ranAny (evs : List Event) : Bool :=
  evs.any fun e => match e with
    | .ran _ => true
    | _ => false

def bodyFilterResume (f : Filter) (st : Rctx) (a : Option ℕ) (pauses : ℕ → Bool) : Filter :=
  let len := chainLen st a
  let eof := f.respChunkEof || chainEof setup st a
  let guest := fun i => onResponseBody len (bodyEof setup len eof) st.respBufs.isSome (pauses i)
  let chain := (Resume.bodyFilterResume f.chain guest).1
  let evs := chain.trace.drop f.chain.trace.length
  { f with
    chain := chain
    respChunkEof := if ranAny evs then bodyEof setup len eof else eof
    offered := fun k => if continued evs k then f.offered k ++ chainBytes st a else f.offered k }

def sendChunk (f : Filter) (sent : Bool) : Filter :=
  if sent && f.respChunkEof then { f with rctx := { f.rctx with respBufs := none } } else f

/-- The chunk is complete or the buffers are full: the paused filter is resumed. -/
def resumeBuffered (f : Filter) (pauses : ℕ → Bool) : Filter :=
  let f := { f with chain := { f.chain with respBuffering := false } }
  bodyFilterResume setup f f.rctx f.rctx.respBufs pauses

def bufferChunk (f : Filter) (c : Chunk) : Filter :=
  let r := bodyFilterBuffer setup.conf f.rctx c.bufs c.alloc
  let f := { f with rctx := r.1 }
  match r.2 with
  | .error => { f with failed := true }
  | .fault => { f with failed := true }
  | .ok => if f.respChunkEof then sendChunk (resumeBuffered setup f c.pausesAgain) c.sent else f
  | .done => sendChunk (resumeBuffered setup f c.pausesAgain) c.sent

def receive (f : Filter) (c : Chunk) : Filter :=
  { f with
    received := f.received ++ c.bufs.flatMap Buf.data
    ended := f.ended || c.bufs.any (eofFlag setup) }

def bodyFilterHandler (f : Filter) (c : Chunk) : Filter :=
  let f := bodyFilterResume setup (receive setup f c) (load f.rctx c.bufs)
    (inputLinks f.rctx c.bufs).head? c.pauses
  if f.chain.respBuffering then bufferChunk setup f c else sendChunk f c.sent

def handlerStep (f : Filter) (c : Chunk) : Filter × Unit := (bodyFilterHandler setup f c, ())

end

end NgxWasm.Http.BodyFilter
