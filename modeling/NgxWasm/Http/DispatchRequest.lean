import NgxWasm.Http.HeaderHandlers

/-!
# The request of an HTTP dispatch (ngx_http_proxy_wasm_dispatch.c)

`ngx_http_proxy_wasm_dispatch` from the guest's headers on (284-391) and
`ngx_http_proxy_wasm_dispatch_request` (548-761). The headers are as
`ngx_proxy_wasm_pairs_unmarshal` gives them, each string with a zero byte behind
it. The request has not been written before (`req_out` is null).
-/

namespace NgxWasm.Http.DispatchRequest

open NgxWasm NgxWasm.ProxyWasm.Pairs NgxWasm.Http.Headers

/-! ### `ngx_http_proxy_wasm_dispatch` -/

structure Call where
  method : Bytes
  path : Bytes
  authority : Bytes
  headers : List Elt
  reqBody : Bytes

inductive DispatchErr where
  | badMethod
  | badPath
  | noMemory
  deriving Repr, DecidableEq

def isPseudo (elt : Elt) : Bool := elt.key.head? == some 58

/-- A name compared by length and `ngx_strncasecmp`. -/
def isNamed (name : String) (elt : Elt) : Bool := keyIs (ascii name) elt

/-- The headers that the request has already. -/
def isHardCoded (elt : Elt) : Bool := isNamed "Host" elt || isNamed "Connection" elt

def readPseudo (call : Call) (elt : Elt) : Call :=
  if elt.key = ascii ":method" then { call with method := elt.value }
  else if elt.key = ascii ":path" then { call with path := elt.value }
  else if elt.key = ascii ":authority" then { call with authority := elt.value }
  -- ":scheme" and names that are not known
  else call

/-- One turn of the loop over the headers; `hash` marks those that are sent. -/
def readHeader (call : Call) (elt : Elt) : Call :=
  if isPseudo elt then
    let call := readPseudo call elt
    { call with headers := call.headers ++ [{ elt with hash := 0 }] }
  else if isHardCoded elt then { call with headers := call.headers ++ [{ elt with hash := 0 }] }
  else { call with headers := call.headers ++ [{ elt with hash := 1 }] }

def newCall : Call := ⟨[], [], [], [], []⟩

/-- `room` says whether the body gets its buffer. -/
def dispatch (headers : List Elt) (body : Bytes) (room : Bool) : Except DispatchErr Call :=
  let call := headers.foldl readHeader newCall
  if call.method = [] then .error .badMethod
  else if call.path = [] then .error .badPath
  else if body = [] then .ok call
  else if room then .ok { call with reqBody := body }
  else .error .noMemory

/-! ### `ngx_http_proxy_wasm_dispatch_request` -/

/-- What the request is written to: the peer is a Unix socket, or has the name `host`. -/
structure Peer where
  unix : Bool
  host : Bytes

def authority (call : Call) (peer : Peer) : Bytes :=
  if call.authority ≠ [] then call.authority
  else if peer.unix then ascii "localhost"
  else peer.host

def newHeaders : HeaderMap := ⟨⟨[], [], pushed_nil⟩, fun _ => none, []⟩

/-- The guest's headers go through the request's setters; none if one is refused. -/
def setHeaders (pool : ℕ → Pool) (b : Build) : ℕ → List Elt → HeaderMap →
    Except Fault (Option HeaderMap)
  | _, [], s => .ok (some s)
  | i, elt :: elts, s =>
    if elt.hash = 0 then setHeaders pool b (i + 1) elts s
    else
      match setHeader (pool i) false (reqHeadersHandlers b) elt.key (some elt.value) .append s with
      | .error fault => .error fault
      | .ok (.ok, s) => setHeaders pool b (i + 1) elts s
      | .ok _ => .ok none

/-- `ngx_sprintf` of a `%O` that is not negative. -/
def sprintNum : ℕ → ℕ → Bytes → Bytes
  | 0, _, p => p
  | k + 1, n, p =>
    let p := UInt8.ofNat (48 + n % 10) :: p
    if n / 10 = 0 then p else sprintNum k (n / 10) p

/-- The digits of a 64-bit number. -/
def offT (n : ℕ) : Bytes := sprintNum 20 n []

def crlf : Bytes := [13, 10]

/-- `NGX_OFF_T_LEN`. -/
def offTLen : ℕ := 20

def headerLen (elt : Elt) : ℕ := elt.key.length + 2 + elt.value.length + 2

/-- The first pass: the length of the headers buffer. `content_length_n` is the
body's length, so it is not negative. -/
def requestLen (call : Call) (auth : Bytes) (s : HeaderMap) : ℕ :=
  let len := call.method.length + 1 + call.path.length + 1 + (ascii "HTTP/1.1" ++ crlf).length
  let len := len + ((ascii "Host").length + 2 + auth.length + 2)
  let len := len + ((ascii "Connection").length + (ascii ": close").length + 2)
  let len :=
    if s.builtin .contentLength = none then
      len + ((ascii "Content-Length").length + 2 + offTLen + 2)
    else len
  let len := s.list.elts.foldl (fun len elt => len + headerLen elt) len
  len + 2

def writeHeader (elt : Elt) : Bytes := elt.key ++ ascii ": " ++ elt.value ++ crlf

/-- The second pass: the bytes written to it. -/
def requestBytes (call : Call) (auth : Bytes) (s : HeaderMap) : Bytes :=
  let b := call.method ++ ascii " " ++ call.path ++ ascii " " ++ ascii "HTTP/1.1" ++ crlf
  let b := b ++ ascii "Host" ++ ascii ": " ++ auth ++ crlf
  let b := b ++ ascii "Connection" ++ ascii ": close" ++ crlf
  let b :=
    if s.builtin .contentLength = none then
      b ++ ascii "Content-Length" ++ ascii ": " ++ offT call.reqBody.length ++ crlf
    else b
  let b := s.list.elts.foldl (fun b elt => b ++ writeHeader elt) b
  b ++ crlf

/-- The headers buffer, with the room it was given, and the body behind it. -/
structure Out where
  len : ℕ
  head : Bytes
  body : Bytes

/-- `room` says whether the list and the buffer get their memory. -/
def dispatchRequest (pool : ℕ → Pool) (b : Build) (room : Bool) (call : Call) (peer : Peer) :
    Except Fault (Option Out) :=
  let auth := authority call peer
  match setHeaders pool b 0 call.headers newHeaders with
  | .error fault => .error fault
  | .ok none => .ok none
  | .ok (some s) =>
    if room then
      .ok (some ⟨requestLen call auth s, requestBytes call auth s, call.reqBody⟩)
    else .ok none

end NgxWasm.Http.DispatchRequest
