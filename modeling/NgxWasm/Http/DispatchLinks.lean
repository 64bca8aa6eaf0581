import NgxWasm.Lib.Links

/-!
# Chain links of dispatched calls (ngx_http_proxy_wasm_dispatch.c, ngx_wasm_socket_tcp.c)

The calls of one request take the links of their buffers from the free list of
the request, their sockets from a copy of that list, and a call gives links back
when its request has been sent and when it is destroyed. A link stands for its
address. The buffers of a request carry the module's tag and are empty once they
have been sent, so that `ngx_chain_update_chains` keeps none of them as busy.
-/

namespace NgxWasm.Http.DispatchLinks
open NgxWasm.Lib Links

/-! ### Data -/

inductive State where
  | sending
  | receiving
  | received
  deriving Repr, DecidableEq

/-- The links of `ngx_http_proxy_wasm_dispatch_t`, its socket and its reader. -/
structure Call where
  state : State
  reqBody : Option ℕ
  reqOut : Option ℕ
  sockFreeBufs : Option ℕ
  bufsIn : Option ℕ
  bufIn : Option ℕ
  busyLargeBufs : Option ℕ
  chunks : Option ℕ
  body : Option ℕ
  deriving Repr, DecidableEq

/-- `poolChain` is the list of freed links of the connection's pool; links are below `fresh`. -/
structure Rctx where
  next : ℕ → Option ℕ
  fresh : ℕ
  poolChain : Option ℕ
  freeBufs : Option ℕ
  calls : ℕ → Option Call
  count : ℕ

/-- `rctx->sock_buffer_reuse` and `sock->buffer_reuse`. -/
structure Conf where
  sockBufferReuse : Bool
  bufferReuse : Bool

def Conf.reuses (conf : Conf) : Bool := conf.sockBufferReuse || conf.bufferReuse

/-- Whether the memory of a link and of its buffer can be allocated. -/
inductive Alloc where
  | ok
  | noLink
  | noBuf
  deriving Repr, DecidableEq

def newRctx : Rctx := ⟨fun _ => none, 0, none, none, fun _ => none, 0⟩

def newCall : Call := ⟨.sending, none, none, none, none, none, none, none, none⟩

def setNext (st : Rctx) (l : ℕ) (a : Option ℕ) : Rctx :=
  { st with next := Function.update st.next l a }

def setCall (st : Rctx) (i : ℕ) (call : Call) : Rctx :=
  { st with calls := Function.update st.calls i (some call) }

/-- A loop over the chain comes to its end. -/
def ends (st : Rctx) (a : Option ℕ) : Bool := (walk st.next (st.fresh + 1) a).length ≤ st.fresh

/-! ### Links -/

/-- `ngx_alloc_chain_link` -/
def allocChainLink (st : Rctx) : Rctx × ℕ :=
  match st.poolChain with
  | some cl => ({ st with poolChain := st.next cl }, cl)
  | none => ({ st with fresh := st.fresh + 1 }, st.fresh)

/-- `ngx_wasm_chain_get_free_buf`: the state, what is left of the free list, and the link. -/
def chainGetFreeBuf (st : Rctx) (free : Option ℕ) (alloc : Alloc) (reuse : Bool) :
    Rctx × Option ℕ × Option ℕ :=
  match reuse, free with
  | true, some cl =>
    -- the link is off the list even if its memory cannot be allocated again
    (setNext st cl none, st.next cl, if alloc = .ok then some cl else none)
  | _, _ =>
    match alloc with
    | .noLink => (st, free, none)
    | .noBuf => ((allocChainLink st).1, free, none)
    | .ok =>
      let r := allocChainLink st
      (setNext r.1 r.2 none, free, some r.2)

/-- `ngx_chain_update_chains` on a chain that has been sent. -/
def chainUpdateChains (st : Rctx) (out : Option ℕ) : Rctx :=
  let r := pushAll st.fresh st.next st.freeBufs out
  { st with next := r.1, freeBufs := r.2 }

/-! ### Destruction -/

/-- `ngx_wasm_socket_tcp_close` -/
def tcpClose (call : Call) : Call :=
  match call.bufsIn with
  | some cl => { call with sockFreeBufs := some cl, bufsIn := none, bufIn := none }
  | none => call

/-- `ngx_wasm_socket_tcp_destroy`: the links of the large buffers go to the pool. -/
def tcpDestroy (st : Rctx) (call : Call) : Rctx :=
  let r := pushAll st.fresh st.next st.poolChain call.busyLargeBufs
  { st with next := r.1, poolChain := r.2 }

/-- `ngx_http_proxy_wasm_dispatch_destroy`, up to the call itself. -/
def dispatchDestroy (st : Rctx) (call : Call) : Rctx :=
  let st := tcpDestroy st (tcpClose call)
  match call.reqBody with
  | some cl => { st with freeBufs := some cl }
  | none => st

/-! ### Dispatch -/

/-- Where `ngx_http_proxy_wasm_dispatch` fails: before or after it takes the body's link. -/
inductive Failure where
  | beforeBody
  | afterBody
  deriving Repr, DecidableEq

/-- `ngx_http_proxy_wasm_dispatch` -/
def dispatch (conf : Conf) (st : Rctx) (hasBody : Bool) (alloc : Alloc)
    (failure : Option Failure) : Rctx :=
  if failure = some .beforeBody then st
  else
    let r := if hasBody then chainGetFreeBuf st st.freeBufs alloc conf.sockBufferReuse
      else (st, st.freeBufs, none)
    let st := { r.1 with freeBufs := r.2.1 }
    if hasBody && r.2.2.isNone then st
    else
      let call := { newCall with reqBody := r.2.2, sockFreeBufs := st.freeBufs }
      if failure = some .afterBody then dispatchDestroy st call
      else { setCall st st.count call with count := st.count + 1 }

/-- `ngx_http_proxy_wasm_dispatch_request` -/
def dispatchRequest (conf : Conf) (st : Rctx) (call : Call) (alloc : Alloc) : Rctx × Call :=
  match call.reqOut with
  | some _ => (st, call)
  | none =>
    let r := chainGetFreeBuf st st.freeBufs alloc conf.sockBufferReuse
    let st := { r.1 with freeBufs := r.2.1 }
    match r.2.2 with
    | none => (st, call)
    | some nl =>
      let st := match call.reqBody with
        | some cl => setNext st nl (some cl)
        | none => st
      (st, { call with reqOut := some nl })

/-! ### Reads -/

/-- A receive buffer of `ngx_wasm_socket_tcp_read`: the first one, or one behind the last. -/
def tcpRead (conf : Conf) (st : Rctx) (call : Call) (alloc : Alloc) : Rctx × Call :=
  let r := chainGetFreeBuf st call.sockFreeBufs alloc conf.bufferReuse
  let call := { call with sockFreeBufs := r.2.1 }
  match r.2.2, call.bufsIn, call.bufIn with
  | none, _, _ => (r.1, call)
  | some cl, some _, some l => (setNext r.1 l (some cl), { call with bufIn := some cl })
  | some cl, _, _ => (r.1, { call with bufsIn := some cl, bufIn := some cl })

/-- `ngx_wasm_http_alloc_large_buffer`; `parsed` tells whether no line is incomplete. -/
def allocLargeBuffer (st : Rctx) (call : Call) (alloc : Alloc) (parsed : Bool) : Rctx × Call :=
  if alloc = .ok then
    let r := allocChainLink st
    (setNext r.1 r.2 call.busyLargeBufs,
      { call with
        busyLargeBufs := some r.2
        bufIn := if parsed then call.bufIn else some r.2 })
  else (st, call)

/-- An incoming chunk of `ngx_wasm_read_http_response`. -/
def readChunk (conf : Conf) (st : Rctx) (call : Call) (alloc : Alloc) : Rctx × Call :=
  let ll := (walk st.next st.fresh call.chunks).getLast?
  let r := chainGetFreeBuf st st.freeBufs alloc conf.bufferReuse
  let st := { r.1 with freeBufs := r.2.1 }
  match r.2.2, ll with
  | none, _ => (st, call)
  | some cl, none => (st, { call with chunks := some cl })
  | some cl, some l => (setNext st l (some cl), call)

/-- The copy of the body at the end of `ngx_wasm_read_http_response`. -/
def readBody (conf : Conf) (st : Rctx) (call : Call) (alloc : Alloc) : Rctx × Call :=
  let r := chainGetFreeBuf st st.freeBufs alloc conf.bufferReuse
  ({ r.1 with freeBufs := r.2.1 }, { call with body := r.2.2 })

/-! ### Runs -/

inductive Read where
  | buffer (alloc : Alloc)
  | large (alloc : Alloc) (parsed : Bool)
  | chunk (alloc : Alloc)
  | body (alloc : Alloc)

def runRead (conf : Conf) (st : Rctx) (call : Call) : Read → Rctx × Call
  | .buffer alloc => tcpRead conf st call alloc
  | .large alloc parsed => allocLargeBuffer st call alloc parsed
  | .chunk alloc => readChunk conf st call alloc
  | .body alloc => readBody conf st call alloc

/-- `dispatch` is a call of the host function, in a step or in the callback of
another call. `send` is one attempt of a call to send its request, and `sent`
tells whether all of it was sent; the rest is what a call does next. -/
inductive Input where
  | dispatch (hasBody : Bool) (alloc : Alloc) (failure : Option Failure)
  | send (i : ℕ) (alloc : Alloc) (sent : Bool)
  | read (i : ℕ) (read : Read)
  | received (i : ℕ)
  | destroy (i : ℕ)

/-- The request has been sent; sending a chain without end never returns. -/
def completes (r : Rctx × Call) (sent : Bool) : Bool :=
  sent && r.2.reqOut.isSome && ends r.1 r.2.reqOut

/-- The `SENDING` state of `ngx_http_proxy_wasm_dispatch_resume_handler`. -/
def sendRequest (conf : Conf) (st : Rctx) (i : ℕ) (call : Call) (alloc : Alloc) (sent : Bool) :
    Rctx :=
  let r := dispatchRequest conf st call alloc
  if completes r sent then
    setCall (chainUpdateChains r.1 r.2.reqOut) i { r.2 with state := .receiving }
  else setCall r.1 i r.2

def next (conf : Conf) (st : Rctx) : Input → Rctx
  | .dispatch hasBody alloc failure => dispatch conf st hasBody alloc failure
  | .send i alloc sent =>
    match st.calls i with
    | some call => if call.state = .sending then sendRequest conf st i call alloc sent else st
    | none => st
  | .read i read =>
    match st.calls i with
    | some call =>
      if call.state = .receiving then
        let r := runRead conf st call read
        setCall r.1 i r.2
      else st
    | none => st
  | .received i =>
    match st.calls i with
    | some call =>
      if call.state = .receiving then setCall st i (tcpClose { call with state := .received })
      else st
    | none => st
  | .destroy i =>
    match st.calls i with
    | some call => { dispatchDestroy st call with calls := Function.update st.calls i none }
    | none => st

def step (conf : Conf) (st : Rctx) (c : Input) : Rctx × Unit := (next conf st c, ())

end NgxWasm.Http.DispatchLinks
