import NgxWasm.Basic
import NgxWasm.Lib.Run
import Mathlib.Tactic.Common

/-!
# Upstream selection by the filters, one connection attempt after the other

`ngx_http_wasm_upstream.c`: `get_peer` (173-260), `free_peer` (263-326),
`test_next` (341-375), `upstream_host_variable` (404-438) and `set_upstream`
(441-528); `ngx_proxy_wasm_hfuncs_proxy_set_upstream` (ngx_proxy_wasm_host.c)
and `ngx_http_wasm_set_host_header_handler` (ngx_http_wasm_headers_request.c
173-201). The peer data is allocated once for a request; `u` is nginx's own
upstream object. nginx ends the request when `get_peer` does not return
`NGX_OK`.
-/

namespace NgxWasm.Http.UpstreamSelect

open NgxWasm

variable {Addr : Type}

/-- What is outside: `ngx_parse_url` without resolution, and the ACL each filter
has or has not. -/
structure Env (Addr : Type) where
  parseUrl : Bytes → ℕ → Option Addr
  acl : ℕ → Option (Addr → Bool)

/-- `rexec->acl != NULL && ngx_wasm_acl_check_addr(..) != NGX_OK`. -/
def Env.forbids (env : Env Addr) (filter : ℕ) (a : Addr) : Bool :=
  match env.acl filter with
  | some check => !check a
  | none => false

inductive Schema where
  | http
  | https
  deriving Repr, DecidableEq

/-- `ngx_http_wasm_upstream_peer_data_t`; a `sockaddr` stands for itself, its
length and its name. -/
structure PeerData (Addr : Type) where
  sockaddr : Option Addr
  tls : Bool
  sni : Bytes
  host : Bytes
  lastStatus : ℕ
  acceptResp : Bool
  deriving Repr, DecidableEq

/-- Of `ngx_http_upstream_t`; `requestHost` is the Host value in `request_bufs`. -/
structure Upstream where
  ssl : Bool
  schema : Schema
  sslName : Bytes
  requestHost : Bytes
  deriving Repr, DecidableEq

structure State (Addr : Type) where
  up : PeerData Addr
  u : Upstream
  ended : Bool
  deriving Repr, DecidableEq

/-- The upstream object as configured, with the Host value of the request. -/
def init (conf : Upstream) : State Addr where
  up := ⟨none, false, [], [], 0, false⟩
  u := conf
  ended := false

inductive Result where
  | ok
  | badArgument
  | internalFailure
  deriving Repr, DecidableEq

/-- What a filter does in `on_upstream_select`, with the answers of the two
allocations. -/
inductive GuestCall where
  | setUpstream (filter : ℕ) (addr : Bytes) (port tls : ℕ) (sni : Bytes) (addrAlloc sniAlloc : Bool)
  | setHost (value : Bytes)
  /-- Another request header. -/
  | setHeader
  deriving Repr, DecidableEq

/-- An address with a colon is put in brackets unless it starts with one. -/
def urlOf (addr : Bytes) : Bytes :=
  if addr.contains 58 && addr.head? != some 91 then 91 :: addr ++ [93] else addr

def setUpstream (env : Env Addr) (up : PeerData Addr) (filter : ℕ) (addr : Bytes) (port : ℕ)
    (tls : Bool) (sni : Bytes) (addrAlloc sniAlloc : Bool) : PeerData Addr × Rc :=
  if up.sockaddr.isSome then (up, .declined)
  else if !addrAlloc then (up, .error)
  else
    match env.parseUrl (urlOf addr) port with
    | none => (up, .declined)
    | some a =>
      if env.forbids filter a then (up, .declined)
      else
        let up := { up with sockaddr := some a, tls }
        if sni.length = 0 then (up, .ok)
        else if !sniAlloc then (up, .error)
        else ({ up with sni }, .ok)

def proxySetUpstream (env : Env Addr) (up : PeerData Addr) (filter : ℕ) (addr : Bytes)
    (port tls : ℕ) (sni : Bytes) (addrAlloc sniAlloc : Bool) : PeerData Addr × Result :=
  if 65535 < port then (up, .badArgument)
  else if tls ≠ 0 ∧ tls ≠ 1 then (up, .badArgument)
  else
    match setUpstream env up filter addr port (tls == 1) sni addrAlloc sniAlloc with
    | (up, .error) => (up, .internalFailure)
    | (up, .declined) => (up, .badArgument)
    | (up, _) => (up, .ok)

/-- The callbacks of `ngx_proxy_wasm_upstream_resume`: the peer data, whether a
request header was set, and the `proxy_set_upstream` calls that were refused, each
with the peer data before and after it. -/
structure Selecting (Addr : Type) where
  up : PeerData Addr
  reqHeadersModified : Bool
  refused : List (PeerData Addr × PeerData Addr)

def guestCall (env : Env Addr) (s : Selecting Addr) : GuestCall → Selecting Addr
  | .setUpstream filter addr port tls sni addrAlloc sniAlloc =>
    let r := proxySetUpstream env s.up filter addr port tls sni addrAlloc sniAlloc
    { s with
      up := r.1
      refused := if r.2 = .ok then s.refused else s.refused ++ [(s.up, r.1)] }
  | .setHost value => { s with up := { s.up with host := value }, reqHeadersModified := true }
  | .setHeader => { s with reqHeadersModified := true }

def resumeSelect (env : Env Addr) (up : PeerData Addr) (calls : List GuestCall) : Selecting Addr :=
  calls.foldl (guestCall env) ⟨up, false, []⟩

/-- `ngx_http_wasm_upstream_host_variable`. -/
def upstreamHostVariable (up : PeerData Addr) (proxyHost : Bytes) : Bytes :=
  if up.host.length ≠ 0 then up.host else proxyHost

/-- One connection attempt: the guests' calls, whether they were left without an
error and without a local response, whether `create_request` succeeds, the peer the
original `get_peer` picks, and the status `test_next` is called with. -/
structure Attempt (Addr : Type) where
  calls : List GuestCall
  resumed : Bool
  localResponse : Bool
  created : Bool
  original : Option Addr
  testNext : Option ℕ
  accept : Bool
  deriving Repr, DecidableEq

/-- What the attempt connects with. -/
structure Used (Addr : Type) where
  addr : Addr
  ssl : Bool
  schema : Schema
  /-- Sent with TLS only. -/
  sni : Option Bytes
  host : Bytes
  deriving Repr, DecidableEq

/-- `u->create_request`, as far as it concerns the Host header. -/
def createRequest (proxyHost : Bytes) (st : State Addr) : State Addr :=
  { st with u := { st.u with requestHost := upstreamHostVariable st.up proxyHost } }

/-- The selected peer goes to nginx's upstream object. -/
def takePeer (st : State Addr) : State Addr :=
  if st.up.tls then
    { st with
      u := { st.u with
        ssl := true
        schema := .https
        sslName := if st.up.sni.length ≠ 0 then st.up.sni else st.u.sslName } }
  else { st with u := { st.u with ssl := false, schema := .http } }

/-- `get_peer` once the callbacks have run; no address for a return code other than
`NGX_OK`. -/
def getPeer (proxyHost : Bytes) (st : State Addr) (reqHeadersModified : Bool)
    (a : Attempt Addr) : State Addr × Option Addr :=
  if !a.resumed || a.localResponse then (st, none)
  else if reqHeadersModified && !a.created then (st, none)
  else
    let st := if reqHeadersModified then createRequest proxyHost st else st
    match st.up.sockaddr with
    | some addr => (takePeer st, some addr)
    | none => (st, a.original)

def testNext (st : State Addr) (status : ℕ) (accept : Bool) : State Addr × Rc :=
  if st.up.sockaddr.isSome then
    let st := { st with up := { st.up with acceptResp := accept, lastStatus := status } }
    (st, if accept then .declined else .ok)
  else (st, .ok)

/-- The address alone is forgotten. -/
def freePeer (st : State Addr) : State Addr :=
  if st.up.sockaddr.isSome then { st with up := { st.up with sockaddr := none } } else st

structure Report (Addr : Type) where
  used : Option (Used Addr)
  refused : List (PeerData Addr × PeerData Addr)

def connected (u : Upstream) (addr : Addr) : Used Addr where
  addr := addr
  ssl := u.ssl
  schema := u.schema
  sni := if u.ssl then some u.sslName else none
  host := u.requestHost

def attempt (env : Env Addr) (conf : Upstream) (st : State Addr) (a : Attempt Addr) :
    State Addr × Report Addr :=
  if st.ended then (st, ⟨none, []⟩)
  else
    let s := resumeSelect env st.up a.calls
    let r := getPeer conf.requestHost { st with up := s.up } s.reqHeadersModified a
    match r.2 with
    | none => ({ r.1 with ended := true }, ⟨none, s.refused⟩)
    | some addr =>
      let st := match a.testNext with
        | some status => (testNext r.1 status a.accept).1
        | none => r.1
      (freePeer st, ⟨some (connected r.1.u addr), s.refused⟩)

end NgxWasm.Http.UpstreamSelect
