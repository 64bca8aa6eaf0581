import NgxWasm.Access.Check
import NgxWasm.Http.UpstreamSelect

/-!
# Connections opened for a filter

`ngx_proxy_wasm_hfuncs_dispatch_http_call` (ngx_proxy_wasm_host.c 1188-1263),
`ngx_wasm_socket_tcp_init`, `ngx_wasm_socket_tcp_connect` and
`ngx_wasm_socket_resolve_handler` (ngx_wasm_socket_tcp.c 139-580), the `resolve`
functions and their handlers (ngx_proxy_wasm_foreign_call.c 78-545) and
`proxy_set_upstream`. One root context with its ACL, all sockets and requests of the
filter; `ngx_parse_url` and the resolver's answers come from outside.
-/

namespace NgxWasm.Access.Connections

open NgxWasm NgxWasm.Lib.LongestMatch NgxWasm.Access.Check
open NgxWasm.Http.UpstreamSelect (PeerData Result proxySetUpstream)

/-- `ngx_parse_url` with `no_resolve` and a default port: an error, a name without
addresses, or the address written in it. -/
abbrev ParseUrl := Bytes → ℕ → Option (Option Sockaddr)

inductive Stage where
  | start
  | resolving
  | connecting
  | failed
  deriving Repr, DecidableEq

/-- Of `ngx_wasm_socket_tcp_t`; `addr` is `url.addrs[0].sockaddr`. -/
structure Socket where
  host : Bytes
  addr : Option Sockaddr
  stage : Stage
  deriving DecidableEq

structure State (T4 : Table 32 Tag) (T6 : Table 128 Tag) where
  acl : Acl T4 T6
  /-- By the id of the dispatch call. -/
  sockets : List Socket
  /-- Names of the `resolve` calls that wait for an answer. -/
  lookups : List (Option Bytes)
  /-- By request. -/
  peers : ℕ → PeerData Sockaddr

/-- The answer of a resolver: its state, its addresses and `ngx_random`. -/
structure Answer where
  failed : Bool
  addrs : List Sockaddr
  random : ℕ
  deriving DecidableEq

def Answer.pick (answer : Answer) : Option Sockaddr :=
  if answer.failed || answer.addrs.length == 0 then none
  else if answer.addrs.length = 1 then answer.addrs[0]?
  else answer.addrs[answer.random % answer.addrs.length]?

/-- Calls of the filter and events of its sockets, in any order. -/
inductive Input where
  | dispatchHttpCall (host : Bytes) (tls made : Bool)
  | dispatchHandler (id : ℕ) (resolverStarts : Bool)
  | resolveHandler (id : ℕ) (answer : Answer) (alloc : Bool)
  | resolve (name : Bytes) (made : Bool)
  | hfuncsResolveHandler (id : ℕ) (answer : Answer) (push : Bool)
  | proxySetUpstream (request : ℕ) (addr : Bytes) (port tls : ℕ) (sni : Bytes)
      (addrAlloc sniAlloc : Bool)
  | getPeer (request : ℕ)
  | freePeer (request : ℕ)
  deriving DecidableEq

inductive Outcome where
  | trap
  | result (r : Result)
  /-- A connection to this address is opened. -/
  | opened (addr : Sockaddr)
  | nothing
  deriving DecidableEq

section
variable {T4 : Table 32 Tag} {T6 : Table 128 Tag}
variable (cidrMatch : Sockaddr → List Cidr → Bool) (names : Names) (parseUrl : ParseUrl)

def init (ctx : Ctx T4 T6) : State T4 T6 :=
  ⟨aclInit ctx, [], [], fun _ => ⟨none, false, [], [], 0, false⟩⟩

/-- `ngx_wasm_socket_tcp_init`. -/
def tcpInit (host : Bytes) (tls : Bool) : Option Socket :=
  match parseUrl host (if tls then 443 else 80) with
  | none => none
  | some addr => some ⟨host, addr, .start⟩

/-- The ACL is asked about the host as it is written; `made` says that the call is
allocated and its maps are well formed. -/
def dispatchHttpCall (s : State T4 T6) (host : Bytes) (tls made : Bool) : State T4 T6 × Outcome :=
  if checkHost cidrMatch names s.acl host ≠ .ok then (s, .trap)
  else if !made then (s, .result .internalFailure)
  else
    match tcpInit parseUrl host tls with
    | none => (s, .result .internalFailure)
    | some sock => ({ s with sockets := s.sockets ++ [sock] }, .result .ok)

def setStage (s : State T4 T6) (id : ℕ) (sock : Socket) (stage : Stage) : State T4 T6 :=
  { s with sockets := s.sockets.set id { sock with stage } }

/-- `ngx_wasm_socket_tcp_connect`. -/
def tcpConnect (s : State T4 T6) (id : ℕ) (sock : Socket) (resolverStarts : Bool) :
    State T4 T6 × Outcome :=
  if sock.stage ≠ .start then (s, .nothing)
  else
    match sock.addr with
    | some addr => (setStage s id sock .connecting, .opened addr)
    | none =>
      if resolverStarts then (setStage s id sock .resolving, .nothing)
      else (setStage s id sock .failed, .nothing)

def dispatchHandler (s : State T4 T6) (id : ℕ) (resolverStarts : Bool) : State T4 T6 × Outcome :=
  match s.sockets[id]? with
  | none => (s, .nothing)
  | some sock => tcpConnect s id sock resolverStarts

/-- `ngx_wasm_socket_resolve_handler`, for both resolvers. -/
def resolveHandler (s : State T4 T6) (id : ℕ) (answer : Answer) (alloc : Bool) :
    State T4 T6 × Outcome :=
  match s.sockets[id]? with
  | none => (s, .nothing)
  | some sock =>
    if sock.stage ≠ .resolving then (s, .nothing)
    else
      match answer.pick with
      | none => (setStage s id sock .failed, .nothing)
      | some addr =>
        if !alloc then (setStage s id sock .failed, .nothing)
        else (setStage s id sock .connecting, .opened addr)

def resolve (s : State T4 T6) (name : Bytes) (made : Bool) : State T4 T6 × Outcome :=
  if name.length = 0 then (s, .trap)
  else if checkHost cidrMatch names s.acl name ≠ .ok then (s, .trap)
  else if !made then (s, .result .internalFailure)
  else ({ s with lookups := s.lookups ++ [some name] }, .result .ok)

/-- The filter is told the address if the ACL takes it. -/
def hfuncsResolveHandler (s : State T4 T6) (id : ℕ) (answer : Answer) (push : Bool) :
    State T4 T6 × Outcome :=
  match s.lookups[id]? with
  | some (some _) =>
    let s := { s with lookups := s.lookups.set id none }
    match answer.pick with
    | none => (s, .nothing)
    | some addr => ({ s with acl := (addAddr s.acl addr push).1 }, .nothing)
  | _ => (s, .nothing)

/-- `rexec->acl` and `ngx_parse_url` as `ngx_http_wasm_set_upstream` sees them. -/
def upstreamEnv (acl : Acl T4 T6) : Http.UpstreamSelect.Env Sockaddr where
  parseUrl := fun url port => (parseUrl url port).join
  acl := fun _ => some fun addr => checkAddr cidrMatch acl addr == .ok

def setPeer (s : State T4 T6) (request : ℕ) (up : PeerData Sockaddr) : State T4 T6 :=
  { s with peers := Function.update s.peers request up }

/-- `ngx_http_wasm_upstream_get_peer` after the selection. -/
def getPeer (s : State T4 T6) (request : ℕ) : Outcome :=
  match (s.peers request).sockaddr with
  | some addr => .opened addr
  | none => .nothing

def step (s : State T4 T6) : Input → State T4 T6 × Outcome
  | .dispatchHttpCall host tls made => dispatchHttpCall cidrMatch names parseUrl s host tls made
  | .dispatchHandler id resolverStarts => dispatchHandler s id resolverStarts
  | .resolveHandler id answer alloc => resolveHandler s id answer alloc
  | .resolve name made => resolve cidrMatch names s name made
  | .hfuncsResolveHandler id answer push => hfuncsResolveHandler s id answer push
  | .proxySetUpstream request addr port tls sni addrAlloc sniAlloc =>
    let r := proxySetUpstream (upstreamEnv cidrMatch parseUrl s.acl) (s.peers request) 0 addr port
      tls sni addrAlloc sniAlloc
    (setPeer s request r.1, .result r.2)
  | .getPeer request => (s, getPeer s request)
  | .freePeer request =>
    (setPeer s request { s.peers request with sockaddr := none }, .nothing)

end

end NgxWasm.Access.Connections
