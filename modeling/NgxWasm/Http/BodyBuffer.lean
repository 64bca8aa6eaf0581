import NgxWasm.Basic
import NgxWasm.Lib.Links
import Mathlib.Logic.Function.Basic

/-!
# Response buffers (ngx_http_wasm_filter_module.c, `ngx_http_wasm_body_filter_buffer`)

Chain links and their buffers live in a heap of addresses. The input of a call
is a chain of links of its own; the code copies its bytes into links that it
allocates, links empty ones that carry a flag, and splices in the rest of the
input when the configured number of buffers is used up.
-/

namespace NgxWasm.Http.BodyBuffer
open NgxWasm.Lib Links

/-! ### Data -/

/-- `ngx_buf_t`: `ngx_buf_in_memory`, the bytes that `ngx_buf_size` counts (from `pos` to
`last`, or those of a file), the room from `last` to `end`, and flags. -/
structure Buf where
  inMemory : Bool
  data : Bytes
  room : ℕ
  flush : Bool
  lastBuf : Bool
  lastInChain : Bool

structure Link extends Buf where
  next : Option ℕ

def Buf.flagged (b : Buf) : Bool := b.lastBuf || b.lastInChain

structure Conf where
  num : ℕ
  size : ℕ
  num_pos : 0 < num
  size_pos : 0 < size

/-- The response buffers of `ngx_http_wasm_req_ctx_t`; links are below `fresh`. -/
structure Rctx where
  link : ℕ → Link
  fresh : ℕ
  respBufs : Option ℕ
  respBufLast : Option ℕ
  respBufsCount : ℕ

def newRctx : Rctx := ⟨fun _ => ⟨⟨true, [], 0, false, false, false⟩, none⟩, 0, none, none, 0⟩

/-- `fault` is a dereference of a null pointer, or a copy from or to a buffer that is not
in memory: `pos` and `last` are null there, or are not where its bytes are. -/
inductive Ret where
  | ok
  | done
  | error
  | fault
  deriving Repr, DecidableEq

def data (st : Rctx) (a : ℕ) : Bytes := (st.link a).data

def flagged (st : Rctx) (a : ℕ) : Bool := (st.link a).flagged

def next (st : Rctx) (a : ℕ) : Option ℕ := (st.link a).next

def links (st : Rctx) (a : Option ℕ) : List ℕ := walk (next st) st.fresh a

/-- The bytes of a chain that `ngx_wasm_chain_len` counts. -/
def chainBytes (st : Rctx) (a : Option ℕ) : Bytes :=
  (upto (flagged st) (links st a)).flatMap (data st)

/-- Those that `proxy_get_buffer_bytes` finds in memory. -/
def chainMemory (st : Rctx) (a : Option ℕ) : Bytes :=
  (upto (flagged st) (links st a)).flatMap fun x => if (st.link x).inMemory then data st x else []

def chainLen (st : Rctx) (a : Option ℕ) : ℕ := (chainBytes st a).length

/-! ### Links -/

def linkLast (st : Rctx) (l a : ℕ) : Rctx :=
  { st with
    link := Function.update st.link l { st.link l with next := some a }
    respBufLast := some a }

/-- An empty buffer of the input: it is linked if it carries a flag. -/
def linkEmpty (st : Rctx) (ll : ℕ) : Option Rctx :=
  if flagged st ll then
    match st.respBufs, st.respBufLast with
    | none, _ => some { st with respBufs := some ll }
    | some _, some l => some (linkLast st l ll)
    | some _, none => none
  else some st

/-- The rest of the input is linked when the buffers are used up. -/
def splice (st : Rctx) : List ℕ → Rctx
  | [] => st
  | rl :: rls =>
    match st.respBufLast with
    | none => st
    | some l =>
      if data st rl = [] then splice st rls
      else splice (linkLast st l rl) rls

/-- A link from `ngx_wasm_chain_get_free_buf`, appended to the buffers. A reused
buffer may have `extra` room. -/
def newBuf (conf : Conf) (st : Rctx) (extra : ℕ) : Rctx :=
  let a := st.fresh
  let st := { st with
    link := Function.update st.link a ⟨⟨true, [], conf.size + extra, false, false, false⟩, none⟩
    fresh := a + 1 }
  let st := match st.respBufs, st.respBufLast with
    | none, _ => { st with respBufs := some a, respBufLast := some a }
    | some _, some l => linkLast st l a
    | some _, none => { st with respBufLast := some a }
  { st with respBufsCount := st.respBufsCount + 1 }

def fill (dst src : Buf) (copy : ℕ) : Buf :=
  { dst with
    data := dst.data ++ src.data.take copy
    room := dst.room - copy
    flush := src.flush
    lastBuf := src.lastBuf
    lastInChain := src.lastInChain }

/-- `copy` bytes of `ll` go into the room of `c`, with the flags of `ll`. -/
def copyBytes (st : Rctx) (c ll copy : ℕ) : Rctx :=
  let src := st.link ll
  let dst := st.link c
  { st with
    link := Function.update
      (Function.update st.link ll { src with data := src.data.drop copy }) c
      ⟨fill dst.toBuf src.toBuf copy, dst.next⟩ }

/-! ### The loops -/

inductive Got where
  | buf (st : Rctx) (c : ℕ)
  | stop (st : Rctx) (rc : Ret)

def getBuf (conf : Conf) (alloc : ℕ → Option ℕ) (input : List ℕ) (st : Rctx) : Option ℕ → Got
  | some c => .buf st c
  | none =>
    if conf.num ≤ st.respBufsCount then .stop (splice st input) .done
    else
      match alloc st.respBufsCount with
      | none => .stop st .error
      | some extra => .buf (newBuf conf st extra) st.fresh

/-- The loop `while (n)` on the link `ll`, with `rest` behind it in the input. -/
def bufferWhile (conf : Conf) (alloc : ℕ → Option ℕ) (ll : ℕ) (rest : List ℕ) :
    ℕ → Rctx → Option ℕ → Rctx × Option ℕ × Ret
  | 0, st, cl => (st, cl, .fault)
  | k + 1, st, cl =>
    if data st ll = [] then (st, cl, .ok)
    else
      match getBuf conf alloc (ll :: rest) st cl with
      | .stop st rc => (st, none, rc)
      | .buf st c =>
        let n := (data st ll).length
        let copy := min n (st.link c).room
        if copy = 0 then bufferWhile conf alloc ll rest k st none
        else if !((st.link ll).inMemory && (st.link c).inMemory) then (st, some c, .fault)
        else if copy < n then
          bufferWhile conf alloc ll rest k { copyBytes st c ll copy with respBufLast := some c } none
        else bufferWhile conf alloc ll rest k (copyBytes st c ll copy) (some c)

def bufferLinks (conf : Conf) (alloc : ℕ → Option ℕ) : List ℕ → Rctx → Option ℕ → Rctx × Ret
  | [], st, _ => (st, .ok)
  | ll :: rest, st, cl =>
    if data st ll = [] then
      match linkEmpty st ll with
      | none => (st, .fault)
      | some st => bufferLinks conf alloc rest st cl
    else
      let r := bufferWhile conf alloc ll rest ((data st ll).length + 2) st cl
      if r.2.2 = .ok then bufferLinks conf alloc rest r.1 r.2.1 else (r.1, r.2.2)

def load (st : Rctx) : List Buf → Rctx
  | [] => st
  | b :: bs =>
    load { st with
      link := Function.update st.link st.fresh
        ⟨b, if bs.isEmpty then none else some (st.fresh + 1)⟩
      fresh := st.fresh + 1 } bs

def inputLinks (st : Rctx) (bufs : List Buf) : List ℕ := List.range' st.fresh bufs.length

/-- `ngx_http_wasm_body_filter_buffer` on the chain `bufs`; `alloc` answers the allocations. -/
def bodyFilterBuffer (conf : Conf) (st : Rctx) (bufs : List Buf) (alloc : ℕ → Option ℕ) :
    Rctx × Ret :=
  bufferLinks conf alloc (inputLinks st bufs) (load st bufs) st.respBufLast

end NgxWasm.Http.BodyBuffer
