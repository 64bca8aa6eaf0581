import NgxWasm.Lib.Run
import NgxWasm.Wasm.Chain

/-!
# Editing the response chunk (ngx_http_wasm_util.c, ngx_http_wasm_filter_module.c)

`ngx_http_wasm_set_resp_body`, `_prepend_resp_body` and their caller
`proxy_set_buffer_bytes` (ngx_proxy_wasm_host.c), inside a body filter that
does not buffer. The links of the connection pool are those of `Mem`; the
context's own pool has other free links.
-/

namespace NgxWasm.Http.RespBody
open NgxWasm NgxWasm.Wasm.Chain

/-! ### Data -/

/-- The response side of `ngx_http_wasm_req_ctx_t`; `mem.free` is `free_bufs`. -/
structure Rctx where
  mem : Mem
  pool : Option ℕ
  respChunk : Option ℕ
  respChunkLen : ℕ
  respChunkEof : Bool
  enteredBodyFilter : Bool
  enteredLogPhase : Bool

def Rctx.chunk (st : Rctx) : List Buf := st.mem.bufs st.respChunk

inductive BufferType where
  | httpRequestBody
  | httpResponseBody
  | other
  deriving Repr, DecidableEq

/-- A call of `proxy_set_buffer_bytes`: its arguments, the guest's slice, and
what the pools answer to the two buffers it may ask for. -/
structure Call where
  bufType : BufferType
  offset : UInt32
  max : UInt32
  data : Bytes
  chunkAlloc : Alloc
  alloc : Alloc

inductive Result where
  | ok
  | internalFailure
  | badArgument
  | trap
  deriving Repr, DecidableEq

/-! ### `ngx_http_wasm_set_resp_body` -/

/-- A chunk of its own when there is none. -/
def newChunk (st : Rctx) (len tag : ℕ) (a : Alloc) : Rctx × Ret :=
  if st.enteredLogPhase then (st, .abort)
  else
    let r := getFreeBuf { st.mem with pool := st.pool } len tag true a
    let st := { st with mem := { r.1 with pool := st.mem.pool }, pool := r.1.pool, respChunk := r.2 }
    (st, if r.2.isSome then .ok else .error)

/-- The length and the end of the chunk after an edit. -/
def measure (st : Rctx) : Rctx :=
  let r := chainLen st.chunk
  { st with respChunkLen := r.1, respChunkEof := st.respChunkEof || r.2 }

def setLastBuf (m : Mem) (cl : ℕ) : Mem :=
  { m with buf := Function.update m.buf cl { m.buf cl with lastBuf := true, lastInChain := true } }

/-- A chunk without bytes: the body filter discards it, else it ends the response. -/
def dropEmpty (st : Rctx) : Rctx :=
  if st.respChunkLen ≠ 0 then st
  else if st.enteredBodyFilter then { st with respChunk := none }
  else
    match st.respChunk with
    | some cl => { st with mem := setLastBuf st.mem cl }
    | none => st

def appendChunk (st : Rctx) (body : Bytes) (offset tag : ℕ) (a : Alloc) : Rctx × Ret :=
  let r := chainAppend st.mem st.respChunk offset body tag a
  let st := { st with mem := r.1, respChunk := r.2.1 }
  if r.2.2 = .ok then (dropEmpty (measure st), .ok) else (st, .error)

def setRespBody (st : Rctx) (body : Bytes) (offset max tag : ℕ) (chunkAlloc alloc : Alloc) :
    Rctx × Ret :=
  if st.respChunk = none then
    let r := newChunk st body.length tag chunkAlloc
    if r.2 = .ok then appendChunk r.1 (body.take max) offset tag alloc else r
  else appendChunk st (body.take max) offset tag alloc

/-! ### `ngx_http_wasm_prepend_resp_body` -/

def prependRespBody (st : Rctx) (body : Bytes) (tag : ℕ) (alloc : Alloc) : Rctx × Ret :=
  if st.respChunk = none then (st, .abort)
  else
    let r := chainPrepend st.mem st.respChunk body tag alloc
    let st := { st with mem := r.1, respChunk := r.2.1 }
    if r.2.2 = .ok then (measure st, .ok) else (st, .error)

/-! ### `proxy_set_buffer_bytes` during `on_response_body` -/

/-- An `i32` argument stored in a `size_t`. -/
def sizeArg (n : UInt32) : ℕ :=
  if n.toNat < 2 ^ 31 then n.toNat else n.toNat + (2 ^ 64 - 2 ^ 32)

def maxArg (c : Call) : ℕ :=
  if c.offset ≠ 0 ∧ c.max = 0 ∧ c.data ≠ [] then c.data.length else sizeArg c.max

/-- Whether the call prepends. -/
def Call.prepends (c : Call) : Prop := c.offset = 0 ∧ c.max = 0 ∧ c.data ≠ []

instance (c : Call) : Decidable c.prepends :=
  inferInstanceAs (Decidable (c.offset = 0 ∧ c.max = 0 ∧ c.data ≠ []))

def setBuffer (tag : ℕ) (st : Rctx) (c : Call) : Rctx × Result :=
  match c.bufType with
  | .httpRequestBody => (st, .trap)
  | .other => (st, .badArgument)
  | .httpResponseBody =>
    let r :=
      if c.prepends then prependRespBody st c.data tag c.alloc
      else setRespBody st c.data (sizeArg c.offset) (maxArg c) tag c.chunkAlloc c.alloc
    (r.1, if r.2 = .ok then .ok else .internalFailure)

/-! ### `ngx_http_wasm_body_filter_handler` -/

/-- `ngx_http_wasm_body_filter_resume` up to the filters: the length and the end
of the chunk that came in. -/
def resumeLen (main : Bool) : List Buf → ℕ × Bool
  | [] => (0, false)
  | b :: bs =>
    if b.lastBuf then (b.size, true)
    else if b.lastInChain then (b.size, !main)
    else
      let r := resumeLen main bs
      (b.size + r.1, r.2)

def enter (main : Bool) (st : Rctx) (inp : Option ℕ) : Rctx :=
  let r := resumeLen main (st.mem.bufs inp)
  { st with
    enteredBodyFilter := true
    respChunk := inp
    respChunkLen := r.1
    respChunkEof := st.respChunkEof || r.2 }

/-- The filters' calls on the chunk `inp`, and the chain for the next body filter. -/
def bodyFilterHandler (main : Bool) (tag : ℕ) (st : Rctx) (inp : Option ℕ) (calls : List Call) :
    Rctx × Option ℕ :=
  let st := (Lib.Run.exec (setBuffer tag) (enter main st inp) calls).1
  (st, st.respChunk)

end NgxWasm.Http.RespBody
