import NgxWasm.Basic
import NgxWasm.Lua.Threads

/-!
# Name resolution by a Lua thread (ngx_wasm_lua_resolver.c)

`ngx_wasm_lua_resolver_resolve`, the chunk it runs, `ngx_wasm_lua_resolver_handler` and the
two handlers of its thread, with `ngx_wasm_socket_resolve_handler` and
`ngx_wasm_socket_tcp_destroy` (ngx_wasm_socket_tcp.c). Thread `i` resolves for dispatch `i`,
whose socket has a pointer to it where the thread could be created. The resolver context is
freed by its handler, and by `resolve` itself on an error. `client.toip` and nginx's parsers
of addresses come from outside; so does what a socket that is resumed makes of its dispatch.
-/

namespace NgxWasm.Lua.Resolver
open NgxWasm NgxWasm.Lua.Threads

/-! ### The chunk -/

inductive Address
  | inet (addr : BitVec 32) (port : BitVec 16)
  | inet6 (addr : BitVec 128) (port : BitVec 16)
  deriving DecidableEq

def inaddrNone : BitVec 32 := 0xffffffff#32

/-- What `client.toip` returned. -/
structure Found where
  ip : Bytes
  port : ℕ

def Found.ipv6 (found : Found) : Bool := found.ip.head? == some 91

def Found.text (found : Found) : Bytes :=
  if found.ipv6 then (found.ip.drop 1).dropLast else found.ip

/-- `ngx_inet_addr` and `ngx_inet6_addr`. -/
structure Parsers where
  inetAddr : Bytes → BitVec 32
  inet6Addr : Bytes → Option (BitVec 128)

def Parsers.address (ps : Parsers) (found : Found) : Option Address :=
  let ip := found.text.takeWhile (· ≠ 0)
  let port := BitVec.ofNat 16 found.port
  if found.ipv6 then (ps.inet6Addr ip).map (.inet6 · port)
  else if ps.inetAddr ip = inaddrNone then none
  else some (.inet (ps.inetAddr ip) port)

/-- The chunk yields, calls `ngx_wasm_lua_resolver_handler` at its end, or raises an error.
`destroyed` says that the dispatch ends when the handler resumes the socket. -/
inductive Course
  | yields
  | finishes (found : Found) (pcalloc destroyed : Bool)
  | raises

def Course.outcome : Course → Outcome
  | .yields => .yields
  | .finishes .. => .finishes
  | .raises => .raises

/-! ### Dispatches -/

def luaResolveErr : ℤ := 100

/-- What is done with a resolver context. -/
inductive Access
  | use
  | handler
  | free
  deriving DecidableEq

/-- The resolver context of a dispatch and `closed` of its socket. `rc` is what
`ngx_wasm_lua_resolver_resolve` returned. -/
structure Dispatch where
  state : ℤ := 0
  addr : Option Address := none
  closed : Bool := false
  rc : Option Rc := none
  log : List Access := []
  deriving DecidableEq

def Dispatch.logged (d : Dispatch) (w : List Access) : Dispatch := { d with log := d.log ++ w }

def Dispatch.failed (d : Dispatch) : Bool := d.state != 0 || d.addr.isNone

structure State where
  env : Env := {}
  dispatches : List Dispatch := []

def State.modify (st : State) (i : ℕ) (f : Dispatch → Dispatch) : State :=
  { st with dispatches := st.dispatches.modify i f }

/-- The calls of `ngx_resolve_name_done` and of the handler around it. -/
def handled (i : ℕ) (st : State) : State := st.modify i (·.logged [.handler, .free])

/-- `ngx_wasm_lua_thread_cancel` with `ngx_wasm_lua_resolver_error_handler`. The socket is
closed, so its handler does not resume it. -/
def cancel (i : ℕ) (st : State) : Option State :=
  match st.env.thread i with
  | none => some st
  | some t =>
    if t.finished then some st
    else (cancelUnlink i st.env).bind fun env =>
      let st := handled i ({ st with env := env }.modify i fun d =>
        { d.logged [.use] with state := luaResolveErr })
      (cancelDelete i env).map fun env => { st with env := env }

def tcpDestroy (i : ℕ) (st : State) : Option State :=
  cancel i (st.modify i fun d => { d with closed := true })

/-- `ngx_wasm_socket_resolve_handler` -/
def socketResolveHandler (i : ℕ) (destroyed : Bool) (st : State) : Option State :=
  match st.dispatches[i]? with
  | none => some st
  | some d =>
    -- after an error a closed socket is not resumed
    if destroyed && !(d.failed && d.closed) then tcpDestroy i (handled i st)
    else some (handled i st)

def errorHandler (i : ℕ) (destroyed : Bool) (st : State) : Option (State × Rc) :=
  if (st.env.lctx i).yielded || (st.env.lctx i).cancelled then
    (socketResolveHandler i destroyed (st.modify i fun d =>
      { d.logged [.use] with state := luaResolveErr })).map (·, .ok)
  else some (st, .error)

def resolverHandler (ps : Parsers) (i : ℕ) (found : Found) (pcalloc destroyed : Bool)
    (st : State) : Option State :=
  match if pcalloc then ps.address found else none with
  | some a => some (st.modify i fun d => { d.logged [.use] with addr := some a })
  | none => socketResolveHandler i destroyed (st.modify i fun d =>
      { d.logged [.use] with state := -1 })

/-! ### Threads -/

def chunkEnd (ps : Parsers) (i : ℕ) (c : Course) (st : State) : Option State :=
  match c with
  | .finishes found pcalloc destroyed => resolverHandler ps i found pcalloc destroyed st
  | _ => some st

/-- `thread_handle_rc` with the handler that it calls. -/
def threadHandleRc (o : Outcome) (i : ℕ) (destroyed : Bool) (st : State) :
    Option (State × Rc) :=
  (Threads.threadHandleRc o i st.env).bind fun env =>
    let next := { st with env := env }
    if threadIsDead o i st.env then
      if o = .finishes then (socketResolveHandler i destroyed next).map (·, .ok)
      else errorHandler i destroyed next
    else some (next, .again)

/-- The end of `ngx_wasm_lua_resolver_resolve`. -/
def resolved (i : ℕ) (rc : Rc) (st : State) : State :=
  st.modify i fun d =>
    { d with rc := some rc, log := if rc = .error then d.log ++ [.free] else d.log }

/-- `ngx_wasm_lua_resolver_resolve` until the chunk runs or an error is returned. -/
def resolve (s : Setup) (st : State) : State :=
  let env := start s st.env
  let d : Dispatch := { log := [.use] }
  { env := env
    dispatches := st.dispatches ++ [
      if env.running.isSome then d
      -- without a thread the context is not freed
      else if s.threadNew then { d.logged [.free] with rc := some .error }
      else { d with rc := some .error }] }

def leave (ps : Parsers) (c : Course) (destroyed : Bool) (st : State) : Option State :=
  match st.env.running with
  | none => some st
  | some r =>
    (chunkEnd ps r.thread c st).bind fun st =>
      let st := { st with env := { st.env with running := none } }
      match r.caller with
      | .first =>
        (firstRun c.outcome r.thread st.env).bind fun env =>
          (threadHandleRc c.outcome r.thread destroyed { st with env := env }).map fun out =>
            resolved r.thread out.2 out.1
      | .resumed => (threadHandleRc c.outcome r.thread destroyed st).map Prod.fst
      | .asEntry =>
        some { st with env := st.env.modify r.thread fun t =>
          { t with ended := decide (c.outcome ≠ .yields) } }

inductive Event
  | resolve (s : Setup)
  | resume (i : ℕ)
  | leave (c : Course) (destroyed : Bool)
  | destroy (i : ℕ)

def next (ps : Parsers) (st : State) : Event → Option State
  | .resolve s => some (if st.env.running.isSome then st else resolve s st)
  | .resume i =>
    some (if st.env.running.isSome then st else { st with env := Threads.resume i st.env })
  | .leave c destroyed => leave ps c destroyed st
  | .destroy i => tcpDestroy i st

def step (ps : Parsers) (st : Option State) (e : Event) : Option State × Unit :=
  (st.bind (next ps · e), ())

end NgxWasm.Lua.Resolver
