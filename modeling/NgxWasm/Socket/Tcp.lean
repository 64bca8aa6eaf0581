import NgxWasm.Http.Headers
import NgxWasm.Lib.Run

/-!
# The TCP socket of an HTTP dispatch

`ngx_wasm_socket_tcp.c`: `ngx_wasm_socket_tcp_err` (66-102), `_connect` (240-446),
`ngx_wasm_socket_resolve_handler` (450-575), `_connect_peer` (579-643), the TLS handshake (648-896),
`_send` (907-991), `_close` (1190-1224), the event handlers (1338-1590); and the resume handler of
`ngx_http_proxy_wasm_dispatch.c` (770-962) with `ngx_http_proxy_wasm_dispatch_err` and `_destroy`.
What nginx, OpenSSL, the kernel and the reader of the response answer comes with each event. The end
of a call takes its posted event and its connection away, but not a query to nginx's resolver: its
answer finds the freed call, which is taken here as it was left. The texts of errors, timers and
buffers of the input are left out.
-/

namespace NgxWasm.Socket.Tcp

open NgxWasm NgxWasm.Lib

/-! ### The socket -/

/-- `ngx_wasm_socket_status_e`. -/
inductive Status where
  | ok
  | badArgument
  | timeout
  | brokenConnection
  | tlsFailure
  | resolverFailure
  | readerFailure
  | internalFailure
  deriving Repr, DecidableEq

structure SslConf where
  verifyCert : Bool
  verifyHost : Bool
  deriving Repr, DecidableEq

inductive Handler where
  | null
  | nop
  | connect
  | send
  | receive
  deriving Repr, DecidableEq

/-- `ngx_wasm_socket_tcp_t`. `literal` says that the host of the URL is an address; `peer`, that
there is a connection; `sslHandler`, that OpenSSL has the handler of the handshake. `err` is the
errno that the message was made from. -/
structure Sock where
  ssl : Option SslConf
  host : Bytes
  sni : Option Bytes
  literal : Bool
  status : Status
  err : Option ℕ
  errno : ℕ
  peer : Bool
  connected : Bool
  closed : Bool
  readClosed : Bool
  writeClosed : Bool
  sslReady : Bool
  sslHandler : Bool
  sslServerName : Bytes
  readHandler : Handler
  writeHandler : Handler
  deriving Repr, DecidableEq

/-- What is seen of a dispatch. -/
inductive Io where
  | failed (status : Status)
  | connected
  /-- The result of the certificate check, and that of the check of its host for `name`. -/
  | verified (cert : Bool) (name : Bytes) (host : Bool)
  | wrote (bytes : Bytes)
  | done (response : Bool)
  | cancelled
  deriving Repr, DecidableEq

inductive TcpRc where
  | ok
  | error
  | again
  | busy
  deriving Repr, DecidableEq

/-- The first error stays. -/
def tcpErr (s : Sock) (status : Status) : Sock × List Io :=
  match s.err with
  | some _ => (s, [])
  | none => ({ s with status, err := some s.errno }, [.failed status])

/-! ### The TLS handshake -/

def strlchr (c : UInt8) (s : Bytes) : Option ℕ := s.findIdx? (· = c)

/-- The name without its port; `inetAddr` says whether a text is an IPv4 address. -/
def sslServerName (inetAddr : Bytes → Bool) (name : Bytes) : Option Bytes :=
  let start := if name.head? = some 91 then (strlchr 93 name).getD 0 else 0
  let len :=
    match strlchr 58 (name.drop start) with
    | some i => start + i
    | none => name.length
  if len = 0 ∨ name.head? = some 91 ∨ inetAddr (name.take len) = true then none
  else some (name.take len)

inductive HandshakeRc where
  | ok
  | again
  | error
  deriving Repr, DecidableEq

structure TlsAns where
  create : Bool
  setServerName : Bool
  handshake : HandshakeRc
  handshaked : Bool
  certOk : Bool
  hostOk : Bytes → Bool

def setServerName (inetAddr : Bytes → Bool) (s : Sock) (a : TlsAns) : Sock × TcpRc × List Io :=
  match sslServerName inetAddr (s.sni.getD s.host) with
  | none =>
    let r := tcpErr s .tlsFailure
    ({ r.1 with sslServerName := [] }, .error, r.2)
  | some name =>
    if a.setServerName then ({ s with sslServerName := name }, .ok, [])
    else ({ s with sslServerName := [] }, .error, [])

def handshakeDone (s : Sock) (a : TlsAns) : Sock × TcpRc × List Io :=
  if !a.handshaked then (s, .again, [])
  else
    let conf := s.ssl.getD ⟨false, false⟩
    if conf.verifyCert && !a.certOk then
      let r := tcpErr s .tlsFailure
      (r.1, .error, r.2)
    else if conf.verifyHost && !a.hostOk s.sslServerName then
      let r := tcpErr s .tlsFailure
      (r.1, .error, r.2)
    else
      ({ s with sslReady := true }, .ok,
        [.verified a.certOk s.sslServerName (a.hostOk s.sslServerName)])

def sslHandshake (inetAddr : Bytes → Bool) (s : Sock) (a : TlsAns) : Sock × TcpRc × List Io :=
  if s.err.isSome then (s, .error, [])
  else if s.sslReady then (s, .ok, [])
  else if !a.create then (s, .error, [])
  else
    match setServerName inetAddr s a with
    | (s, .ok, io) =>
      match a.handshake with
      | .ok =>
        let r := handshakeDone s a
        (r.1, r.2.1, io ++ r.2.2)
      | .again => ({ s with sslHandler := true }, .again, io)
      | .error => (s, .error, io)
    | (s, _, io) => (s, .error, io)

/-! ### Connecting -/

/-- `connErr` is what `ngx_wasm_socket_tcp_test_connect` finds, `events` whether both events are
handled. -/
structure PeerAns where
  connect : TcpRc
  declined : Option ℕ
  timedout : Bool
  connErr : Option ℕ
  events : Bool

def connectHandler (s : Sock) (a : PeerAns) : Sock × List Io :=
  if a.timedout then tcpErr s .timeout
  else
    let s := { s with readHandler := .nop, writeHandler := .nop }
    match a.connErr with
    | some errno => tcpErr { s with errno } .brokenConnection
    | none => if a.events then ({ s with connected := true }, [.connected]) else (s, [])

/-- `declined` is the errno of an `NGX_DECLINED`. -/
def connectPeer (s : Sock) (a : PeerAns) : Sock × TcpRc × List Io :=
  match a.declined with
  | some errno =>
    let r := tcpErr { s with errno } .brokenConnection
    (r.1, .error, r.2)
  | none =>
    let linked := { s with peer := true, readHandler := .connect, writeHandler := .connect }
    match a.connect with
    | .error => (s, .error, [])
    | .busy =>
      let r := tcpErr s .internalFailure
      (r.1, .busy, r.2)
    | .again => (linked, .again, [])
    | .ok =>
      let r := connectHandler linked a
      (r.1, .ok, r.2)

structure Answers where
  resolverStart : Bool
  resolverQuery : Bool
  peer : PeerAns
  tls : TlsAns

def tcpConnect (inetAddr : Bytes → Bool) (s : Sock) (a : Answers) : Sock × TcpRc × List Io :=
  if s.err.isSome then (s, .error, [])
  else if s.connected then
    if s.ssl.isSome then sslHandshake inetAddr s a.tls else (s, .ok, [])
  else if s.literal then
    match connectPeer s a.peer with
    | (s, .ok, io) =>
      if s.ssl.isSome then
        let r := sslHandshake inetAddr s a.tls
        (r.1, r.2.1, io ++ r.2.2)
      else (s, .ok, io)
    | r => r
  else if !a.resolverStart then
    let r := tcpErr s .internalFailure
    (r.1, .error, r.2)
  else if a.resolverQuery then (s, .again, [])
  else (s, .error, [])

/-! ### Sending and closing -/

inductive SendAns where
  | took (n : ℕ)
  | again
  | error (errno : ℕ)
  deriving Repr, DecidableEq

/-- The chain is what is left of each buffer. The first buffer is tried again when nothing of it
was left before; answers that are not given are `NGX_AGAIN`. -/
def sendLoop : List SendAns → List Bytes → List Bytes × Bytes × SendAns
  | _, [] => ([], [], .took 0)
  | [], b :: bs => (b :: bs, [], .again)
  | .took n :: as, b :: bs =>
    if b.drop n = [] then
      if bs = [] then ([[]], b, .took 0)
      else
        let r := sendLoop as bs
        ([] :: r.1, b ++ r.2.1, r.2.2)
    else
      let r := sendLoop as (b.drop n :: bs)
      (r.1, b.take n ++ r.2.1, r.2.2)
  | a :: _, b :: bs => (b :: bs, [], a)

/-- What `ngx_wasm_socket_tcp_send` was told; `event` is for `ngx_handle_write_event`. -/
structure WriteAns where
  sends : List SendAns
  event : Bool

def tcpSend (s : Sock) (bufs : List Bytes) (a : WriteAns) :
    Sock × List Bytes × TcpRc × List Io :=
  if !s.connected then
    let r := tcpErr s .internalFailure
    (r.1, bufs, .error, r.2)
  else
    match sendLoop a.sends bufs with
    | (bufs, bytes, .took _) =>
      ({ s with writeHandler := .nop }, bufs, if a.event then .ok else .error, [.wrote bytes])
    | (bufs, bytes, .error errno) =>
      let r := tcpErr { s with errno } .brokenConnection
      (r.1, bufs, .error, .wrote bytes :: r.2)
    | (bufs, bytes, .again) =>
      ({ s with writeHandler := .send }, bufs, if a.event then .again else .error, [.wrote bytes])

inductive ReadAns where
  | ok
  | again
  | recvError (errno : ℕ)
  | parserError
  /-- Memory is lacking, or an event is not handled. -/
  | failed
  deriving Repr, DecidableEq

/-- The loop of `ngx_wasm_socket_tcp_read` is answered by its result. -/
def tcpRead (s : Sock) (a : ReadAns) : Sock × TcpRc × List Io :=
  if !s.connected then
    let r := tcpErr s .internalFailure
    (r.1, .error, r.2)
  else
    match a with
    | .ok => ({ s with readHandler := .nop }, .ok, [])
    | .again => ({ s with readHandler := .receive }, .again, [])
    | .recvError errno =>
      let r := tcpErr { s with readHandler := .receive, errno } .brokenConnection
      (r.1, .error, r.2)
    | .parserError =>
      let r := tcpErr { s with readHandler := .receive } .readerFailure
      (r.1, .error, r.2)
    | .failed => ({ s with readHandler := .receive }, .error, [])

def tcpClose (s : Sock) : Sock :=
  if s.closed then s
  else { s with readClosed := true, writeClosed := true, connected := false, closed := true }

/-! ### The dispatch -/

inductive CallPhase where
  | start
  | connecting
  | sending
  | receiving
  | received
  deriving Repr, DecidableEq

/-- `ngx_http_proxy_wasm_dispatch_t`; `freed` is a call that was destroyed. -/
structure Call where
  sock : Sock
  state : CallPhase
  reqOut : List Bytes
  freed : Bool
  deriving Repr, DecidableEq

/-- `request` says that `ngx_http_proxy_wasm_dispatch_request` gives the chain. -/
structure CallAns where
  answers : Answers
  request : Bool
  write : WriteAns
  read : ReadAns
  trapped : Bool

def destroyCall (c : Call) : Call := { c with sock := tcpClose c.sock, freed := true }

/-- `ngx_http_proxy_wasm_dispatch_err` with the callback that tells the filter. -/
def dispatchErr (c : Call) (io : List Io) : Call × List Io := (destroyCall c, io ++ [.done false])

def runReceived (c : Call) (a : CallAns) (io : List Io) : Call × List Io :=
  let c := { c with sock := tcpClose c.sock }
  if a.trapped then dispatchErr c io else (destroyCall c, io ++ [.done true])

def runReceiving (c : Call) (a : CallAns) (io : List Io) : Call × List Io :=
  let r := tcpRead c.sock a.read
  let c := { c with sock := r.1 }
  let io := io ++ r.2.2
  match r.2.1 with
  | .error => dispatchErr c io
  | .again => (c, io)
  | _ => runReceived { c with state := .received } a io

def runSending (c : Call) (a : CallAns) (io : List Io) : Call × List Io :=
  if !a.request then dispatchErr c io
  else
    let r := tcpSend c.sock c.reqOut a.write
    let c := { c with sock := r.1, reqOut := r.2.1 }
    let io := io ++ r.2.2.2
    match r.2.2.1 with
    | .error => dispatchErr c io
    | .again => (c, io)
    | _ => runReceiving { c with state := .receiving } a io

def runConnecting (inetAddr : Bytes → Bool) (c : Call) (a : CallAns) : Call × List Io :=
  let r := tcpConnect inetAddr c.sock a.answers
  let c := { c with sock := r.1 }
  match r.2.1 with
  | .error => dispatchErr c r.2.2
  | .again => (c, r.2.2)
  | _ => runSending { c with state := .sending } a r.2.2

/-- `ngx_http_proxy_wasm_dispatch_resume_handler`. -/
def dispatchResume (inetAddr : Bytes → Bool) (c : Call) (a : CallAns) : Call × List Io :=
  if c.sock.err.isSome then dispatchErr c []
  else
    match c.state with
    | .start => runConnecting inetAddr { c with state := .connecting } a
    | .connecting => runConnecting inetAddr c a
    | .sending => runSending c a []
    | .receiving => runReceiving c a []
    | .received => runReceived c a []

/-! ### Events -/

inductive TcpEv where
  /-- The posted event of a new dispatch. -/
  | start (a : CallAns)
  | resolved (ok : Bool) (a : CallAns)
  /-- There is no memory for the address that was found. -/
  | unplaced (a : CallAns)
  | event (write timedout : Bool) (a : CallAns)
  | handshake (a : CallAns)
  /-- `ngx_proxy_wasm_dispatch_ops_cancel`, which knows the calls in the queue. -/
  | cancel

def eventHandler (s : Sock) (write timedout : Bool) (a : PeerAns) : Sock × List Io :=
  match if write then s.writeHandler else s.readHandler with
  | .connect => connectHandler s a
  | .send => if timedout then tcpErr s .timeout else (s, [])
  | .receive => if timedout then tcpErr s .timeout else (s, [])
  | _ => (s, [])

def resumeWith (inetAddr : Bytes → Bool) (c : Call) (r : Sock × List Io) (a : CallAns) :
    Call × List Io :=
  let t := dispatchResume inetAddr { c with sock := r.1 } a
  (t.1, r.2 ++ t.2)

def tcpStep (inetAddr : Bytes → Bool) (c : Call) (ev : TcpEv) : Call × List Io :=
  match ev with
  | .start a => if c.freed then (c, []) else dispatchResume inetAddr c a
  | .resolved false a =>
    let r := tcpErr c.sock .resolverFailure
    if c.sock.closed then ({ c with sock := r.1 }, r.2) else resumeWith inetAddr c r a
  | .resolved true a =>
    -- its result is not looked at
    let r := connectPeer c.sock a.answers.peer
    ({ c with sock := r.1 }, r.2.2)
  | .unplaced a => if c.sock.closed then (c, []) else dispatchResume inetAddr c a
  | .event write timedout a =>
    if c.sock.closed then (c, [])
    else resumeWith inetAddr c (eventHandler c.sock write timedout a.answers.peer) a
  | .handshake a =>
    if c.freed || !c.sock.sslHandler then (c, [])
    else
      match handshakeDone c.sock a.answers.tls with
      | (s, .again, io) =>
        let r := tcpErr s .tlsFailure
        resumeWith inetAddr c (r.1, io ++ r.2) a
      | (s, _, io) => resumeWith inetAddr c (s, io) a
  | .cancel => if c.freed then (c, []) else (destroyCall c, [.cancelled])

def newSock (ssl : Option SslConf) (host : Bytes) (sni : Option Bytes) (literal : Bool) : Sock where
  ssl := ssl
  host := host
  sni := sni
  literal := literal
  status := .ok
  err := none
  errno := 0
  peer := false
  connected := false
  closed := false
  readClosed := false
  writeClosed := false
  sslReady := false
  sslHandler := false
  sslServerName := []
  readHandler := .null
  writeHandler := .null

def newCall (s : Sock) (request : List Bytes) : Call := ⟨s, .start, request, false⟩

end NgxWasm.Socket.Tcp
