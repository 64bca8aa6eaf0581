import NgxWasm.Basic
import NgxWasm.Lib.Parsers

/-!
# The HTTP response reader of a TCP socket

`ngx_wasm_http_alloc_large_buffer` and `ngx_wasm_read_http_response`
(ngx_wasm_socket_tcp_readers.c 12-546), `ngx_wa_read_bytes` (ngx_wa_readers.c 83-104),
`ngx_wasm_socket_read_http_response` and `ngx_wasm_socket_tcp_read`
(ngx_wasm_socket_tcp.c 1018-1202). The parsers and the header handlers are nginx's.
Memory is never refused, and a buffer shares it with no other.
-/

namespace NgxWasm.Socket.HttpReader

open NgxWasm NgxWasm.Lib.Parsers

/-! ### What nginx provides -/

/-- `status->start` and `status->end`. -/
inductive StatusMark where
  | start
  | stop
  deriving DecidableEq

inductive StatusResult where
  | ok (code : ℕ)
  | error
  deriving DecidableEq

/-- `header_name_start`, `header_name_end`, `header_start` and `header_end`. -/
inductive HeaderMark where
  | nameStart
  | nameEnd
  | start
  | stop
  deriving DecidableEq

/-- With `header_hash` and the first `lowcase_index` bytes of `lowcase_header`. -/
inductive HeaderResult where
  | ok (hash : ℕ) (lowcase : Bytes)
  | done
  | invalid
  deriving DecidableEq

inductive ChunkResult where
  | ok
  | done
  | error
  deriving DecidableEq

/-- `ngx_table_elt_t`. -/
structure Header where
  hash : ℕ
  key : Bytes
  value : Bytes
  lowcaseKey : Bytes
  deriving DecidableEq

/-- `content_length_n`, `none` for -1, and `chunked`. -/
structure Lengths where
  contentLength : Option ℕ
  chunked : Bool
  deriving DecidableEq

/-- The parsers, from the state they left in the request, and the handler that
`headers_in_hash` has for a header that follows others; no reply for an error. -/
structure Nginx (σ κ : Type) where
  zeroed : σ
  /-- `r->state`. -/
  state : σ → ℕ
  statusLine : σ → Bytes → Reply σ StatusMark StatusResult
  headerLine : σ → Bytes → Reply σ HeaderMark HeaderResult
  unchunked : κ
  parseChunked : κ → Bytes → Reply κ Empty ChunkResult
  /-- `ngx_http_chunked_t.size`. -/
  size : κ → ℕ
  clearSize : κ → κ
  handler : List Header → Lengths → Header → Option Lengths

/-! ### Memory -/

/-- `off` counts from the start of the buffer. -/
structure Ptr where
  buf : ℕ
  off : ℤ
  deriving DecidableEq

/-- `wasm_socket_buffer_size` and `wasm_socket_large_buffers`. -/
structure Conf where
  bufferSize : ℕ
  largeNum : ℕ
  largeSize : ℕ

/-- `ngx_buf_t`; `size` is from its start to its end. -/
structure Buf where
  id : ℕ
  pos : ℕ
  size : ℕ
  deriving DecidableEq

/-- Of `ngx_wasm_socket_tcp_t`. -/
structure Sock where
  /-- What a buffer holds from its start to its `last`. -/
  mem : ℕ → Bytes
  nextBuf : ℕ
  buffer : Buf
  /-- `buf_in->buf->last`. -/
  inLast : Ptr
  lbusy : ℕ
  eof : Bool

namespace Sock

def data (s : Sock) : Bytes := s.mem s.buffer.id

def unread (s : Sock) : Bytes := s.data.drop s.buffer.pos

/-- `src->last == src->end`. -/
def full (s : Sock) : Bool := s.data.length == s.buffer.size

def here (s : Sock) : Ptr := ⟨s.buffer.id, s.buffer.pos⟩

def advance (s : Sock) (n : ℕ) : Sock := { s with buffer := { s.buffer with pos := s.buffer.pos + n } }

/-- `buf_in->buf->last = src->pos` after the parser moved. -/
def consume (s : Sock) (n : ℕ) : Sock := { s.advance n with inLast := (s.advance n).here }

def store (s : Sock) (id : ℕ) (bytes : Bytes) : Sock :=
  { s with mem := fun i => if i = id then bytes else s.mem i }

end Sock

/-- The bytes between two pointers into one buffer. -/
def span (mem : ℕ → Bytes) : Option Ptr → Option Ptr → Option Bytes
  | some a, some b =>
    if a.buf = b.buf ∧ 0 ≤ a.off ∧ a.off ≤ b.off ∧ b.off ≤ (mem a.buf).length then
      some (((mem a.buf).drop a.off.toNat).take (b.off - a.off).toNat)
    else none
  | _, _ => none

/-- Where a parser's marks point when it reads from `p`. -/
def place {ι : Type} (p : Ptr) (mark : ι → Option ℤ) (old : ι → Option Ptr) (i : ι) : Option Ptr :=
  match mark i with
  | some a => some ⟨p.buf, p.off + a⟩
  | none => old i

/-- `new + (x - old)`. -/
def relocate (old : Ptr) (new : ℕ) : Option Ptr → Option Ptr
  | some x => if x.buf = old.buf then some ⟨new, x.off - old.off⟩ else none
  | none => none

/-! ### The reader -/

/-- `ngx_wasm_http_reader_ctx_t` with its request and the `headers_in` of its upstream. -/
structure Ctx (σ κ : Type) where
  r : σ
  requestStart : Option Ptr
  statusPtr : StatusMark → Option Ptr
  headerPtr : HeaderMark → Option Ptr
  statusCode : ℕ
  statusLine : Bytes
  headers : List Header
  lengths : Lengths
  headerDone : Bool
  chunked : κ
  rest : ℕ
  bodyLen : ℕ
  chunks : List (Ptr × Ptr)
  body : Option Bytes

/-- Of the return codes, `large` is the error for want of a large buffer; `stray` stands
for a pointer that leaves its buffer and `loops` for a loop that does not end. -/
inductive Answer where
  | ok
  | again
  | error
  | large
  | stray
  | loops
  deriving DecidableEq

section
variable {σ κ : Type} (ng : Nginx σ κ) (conf : Conf)

def initCtx : Ctx σ κ where
  r := ng.zeroed
  requestStart := none
  statusPtr := fun _ => none
  headerPtr := fun _ => none
  statusCode := 0
  statusLine := []
  headers := []
  lengths := ⟨none, false⟩
  headerDone := false
  chunked := ng.unchunked
  rest := 0
  bodyLen := 0
  chunks := []
  body := none

/-- A new buffer of the large ones takes what the parser still points to. -/
def moveLine (s : Sock) (c : Ctx σ κ) (old : Ptr) : Sock × Ctx σ κ :=
  let line := (s.data.take s.buffer.pos).drop old.off.toNat
  let new := s.nextBuf
  let s := { s.store new line with
    nextBuf := new + 1
    buffer := ⟨new, line.length, conf.largeSize⟩
    inLast := ⟨new, line.length⟩
    lbusy := s.lbusy + 1 }
  let c := if c.statusCode = 0 then
      { c with
        requestStart := some ⟨new, 0⟩
        statusPtr := fun i => relocate old new (c.statusPtr i) }
    else { c with headerPtr := fun i => relocate old new (c.headerPtr i) }
  (s, c)

def allocLargeBuffer (s : Sock) (c : Ctx σ κ) : Sock × Ctx σ κ × Answer :=
  if c.statusCode = 0 ∧ ng.state c.r = 0 then
    ({ s.store s.buffer.id [] with buffer := { s.buffer with pos := 0 } }, c, .ok)
  else if ng.state c.r = 0 then
    if s.lbusy < conf.largeNum then
      ({ s.store s.nextBuf [] with
          nextBuf := s.nextBuf + 1
          buffer := ⟨s.nextBuf, 0, conf.largeSize⟩
          lbusy := s.lbusy + 1 }, c, .ok)
    else (s, c, .large)
  else
    match if c.statusCode ≠ 0 then c.headerPtr .nameStart else c.requestStart with
    | none => (s, c, .stray)
    | some old =>
      if old.buf ≠ s.buffer.id ∨ old.off < 0 ∨ s.buffer.pos < old.off then (s, c, .stray)
      else if conf.largeSize ≤ s.buffer.pos - old.off then (s, c, .large)
      else if s.lbusy < conf.largeNum then
        let r := moveLine conf s c old
        (r.1, r.2, .ok)
      else (s, c, .large)

/-- The parser asks for more. -/
def askMore (s : Sock) (c : Ctx σ κ) : Sock × Ctx σ κ × Answer :=
  if s.full then
    match allocLargeBuffer ng conf s c with
    | (s, c, .ok) => (s, c, .again)
    | r => r
  else (s, c, .again)

/-- What a parser wrote to the request and the status. -/
def Ctx.status (c : Ctx σ κ) (s : Sock) (r : Reply σ StatusMark StatusResult) : Ctx σ κ :=
  { c with r := r.next, statusPtr := place s.here r.mark c.statusPtr }

def Ctx.header (c : Ctx σ κ) (s : Sock) (r : Reply σ HeaderMark HeaderResult) : Ctx σ κ :=
  { c with r := r.next, headerPtr := place s.here r.mark c.headerPtr }

def readStatusLine (s : Sock) (c : Ctx σ κ) : Sock × Ctx σ κ × Answer :=
  let r := ng.statusLine c.r s.unread
  let c := c.status s r
  match r.result with
  | some .error => (s, c, .error)
  | none => askMore ng conf (s.advance r.used) c
  | some (.ok code) =>
    let s := s.consume r.used
    let c := { c with statusCode := code }
    match span s.mem (c.statusPtr .start) (c.statusPtr .stop) with
    | some text => (s, { c with statusLine := text }, .again)
    | none => (s, c, .stray)

def strlow (bytes : Bytes) : Bytes :=
  bytes.map fun b => if 65 ≤ b ∧ b ≤ 90 then b ||| 0x20 else b

def newHeader (hash : ℕ) (lowcase key value : Bytes) : Header where
  hash := hash
  key := key
  value := value
  lowcaseKey := if key.length = lowcase.length then lowcase else strlow key

/-- The loop over the header lines; no answer when the body follows in the buffer. -/
def readHeaderLines (bytes : ℕ) : ℕ → Sock → Ctx σ κ → Sock × Ctx σ κ × Option Answer
  | 0, s, c => (s, c, some .loops)
  | fuel + 1, s, c =>
    let r := ng.headerLine c.r s.unread
    let c := c.header s r
    match r.result with
    | some .invalid => (s, c, some .error)
    | none =>
      let a := askMore ng conf (s.advance r.used) c
      (a.1, a.2.1, some a.2.2)
    | some .done =>
      let s := s.consume r.used
      let c := { c with headerDone := true }
      if bytes ≤ s.buffer.pos then
        (s, c, some (if c.lengths.contentLength = some 0 then .ok else .again))
      else (s, c, none)
    | some (.ok hash lowcase) =>
      let s := s.consume r.used
      match span s.mem (c.headerPtr .nameStart) (c.headerPtr .nameEnd),
          span s.mem (c.headerPtr .start) (c.headerPtr .stop) with
      | some key, some value =>
        let h := newHeader hash lowcase key value
        match ng.handler c.headers c.lengths h with
        | some lengths =>
          readHeaderLines bytes fuel s { c with headers := c.headers ++ [h], lengths }
        | none => (s, { c with headers := c.headers ++ [h] }, some .error)
      | _, _ => (s, c, some .stray)

/-- `ngx_wa_read_bytes`. -/
def readBytes (s : Sock) (bytes rest : ℕ) : Sock × ℕ × Answer :=
  if bytes = 0 then (s, rest, .error)
  else if rest ≤ bytes then (s.consume rest, 0, .ok)
  else
    ({ s.advance bytes with inLast := { s.inLast with off := s.inLast.off + bytes } },
      rest - bytes, .again)

/-- An incoming chunk is a pair of pointers. -/
def readChunk (s : Sock) (c : Ctx σ κ) : Sock × Ctx σ κ × Answer :=
  let r := readBytes s s.unread.length c.rest
  (r.1, { c with rest := r.2.1, chunks := c.chunks ++ [(s.here, r.1.inLast)] }, r.2.2)

inductive ChunkHead where
  | stop (answer : Answer)
  | finished
  | data

/-- The size of the next chunk, or the content length. -/
def readChunkHead (s : Sock) (c : Ctx σ κ) : Sock × Ctx σ κ × ChunkHead :=
  if c.lengths.chunked ∧ c.rest = 0 then
    let r := ng.parseChunked c.chunked s.unread
    let c := { c with chunked := r.next }
    match r.result with
    | some .error => (s, c, .stop .error)
    | none => (s.advance r.used, c, .stop .again)
    | some .done => (s.consume r.used, c, .finished)
    | some .ok =>
      (s.consume r.used,
        { c with bodyLen := c.bodyLen + ng.size r.next, rest := ng.size r.next }, .data)
  else
    match c.lengths.contentLength with
    | some n =>
      let c := if c.bodyLen = 0 then { c with bodyLen := n, rest := n } else c
      (s, c, if c.rest = 0 then .finished else .data)
    | none => (s, c, .data)

/-- The loop over the chunks of the body; no answer when it is complete. -/
def readChunks : ℕ → Sock → Ctx σ κ → Sock × Ctx σ κ × Option Answer
  | 0, s, c => (s, c, some .loops)
  | fuel + 1, s, c =>
    match readChunkHead ng s c with
    | (s, c, .stop answer) => (s, c, some answer)
    | (s, c, .finished) => (s, c, none)
    | (s, c, .data) =>
      match readChunk s c with
      | (s, c, .ok) => readChunks fuel s { c with chunked := ng.clearSize c.chunked }
      | (s, c, answer) => (s, c, some answer)

def copyChunks (mem : ℕ → Bytes) : List (Ptr × Ptr) → Option Bytes
  | [] => some []
  | (a, b) :: chunks =>
    match span mem (some a) (some b), copyChunks mem chunks with
    | some xs, some ys => some (xs ++ ys)
    | _, _ => none

/-- The body is copied to close the socket. -/
def copyBody (s : Sock) (c : Ctx σ κ) : Sock × Ctx σ κ × Answer :=
  if c.bodyLen = 0 then (s, c, .ok)
  else
    match copyChunks s.mem c.chunks with
    | some body => (s, { c with body := some body }, .ok)
    | none => (s, c, .stray)

def readBody (s : Sock) (c : Ctx σ κ) : Sock × Ctx σ κ × Answer :=
  if c.lengths.contentLength.isSome ∨ c.lengths.chunked then
    match readChunks ng (s.unread.length + 1) s c with
    | (s, c, some answer) => (s, c, answer)
    | (s, c, none) => copyBody s c
  else copyBody s c

def readHttpResponse (s : Sock) (c : Ctx σ κ) (bytes : ℕ) : Sock × Ctx σ κ × Answer :=
  let c := if c.requestStart.isNone then { c with requestStart := some s.here } else c
  if c.headerDone then readBody ng s c
  else if c.statusCode = 0 then readStatusLine ng conf s c
  else
    match readHeaderLines ng conf bytes (s.unread.length + 1) s c with
    | (s, c, some answer) => (s, c, answer)
    | (s, c, none) => readBody ng s c

/-- `ngx_wasm_socket_read_http_response`. -/
def socketReadHttpResponse (s : Sock) (c : Ctx σ κ) (bytes : ℕ) : Sock × Ctx σ κ × Answer :=
  if bytes ≠ 0 then readHttpResponse ng conf s c bytes else (s, c, .ok)

/-! ### `ngx_wasm_socket_tcp_read` -/

/-- The bytes the peer has sent and the socket has not received come after those in the
buffers; `answer` is what the call that ended returned. -/
structure State (σ κ : Type) where
  sock : Sock
  ctx : Ctx σ κ
  stream : Bytes
  answer : Option Answer

/-- One pass of the loop calls the reader or receives; `data n` stands for a `recv` that
finds `n + 1` bytes, as far as they are there and the buffer takes them. -/
inductive Event where
  | read
  | notReady
  | again
  | data (n : ℕ)
  deriving DecidableEq

def init (stream : Bytes) : State σ κ where
  sock := ⟨fun _ => [], 1, ⟨0, 0, conf.bufferSize⟩, ⟨0, 0⟩, 0, false⟩
  ctx := initCtx ng
  stream := stream
  answer := none

/-- `avail == 0`: a new buffer. -/
def makeRoom (s : Sock) : Sock :=
  if s.full then
    { s.store s.nextBuf [] with
      nextBuf := s.nextBuf + 1
      buffer := ⟨s.nextBuf, 0, conf.bufferSize⟩
      inLast := ⟨s.nextBuf, 0⟩ }
  else s

def recv (st : State σ κ) (n : ℕ) : State σ κ :=
  let s := makeRoom conf st.sock
  let got := st.stream.take (min (n + 1) (s.buffer.size - s.data.length))
  if got = [] then { st with sock := { s with eof := true } }
  else
    { st with
      sock := s.store s.buffer.id (s.data ++ got)
      stream := st.stream.drop got.length }

def callReader (st : State σ κ) : State σ κ :=
  let r := socketReadHttpResponse ng conf st.sock st.ctx st.sock.unread.length
  { st with
    sock := r.1
    ctx := r.2.1
    answer := if r.2.2 = .again then none else some r.2.2 }

/-- An event that does not fit the state changes nothing. -/
def step (st : State σ κ) : Event → State σ κ
  | .read =>
    if st.answer.isNone ∧ (st.sock.unread ≠ [] ∨ st.sock.eof) then callReader ng conf st else st
  | .notReady => st
  | .again =>
    if st.answer.isNone ∧ st.sock.unread = [] ∧ ¬ st.sock.eof then
      { st with sock := makeRoom conf st.sock }
    else st
  | .data n =>
    if st.answer.isNone ∧ st.sock.unread = [] ∧ ¬ st.sock.eof then recv conf st n else st

def run (st : State σ κ) (events : List Event) : State σ κ := events.foldl (step ng conf) st

end

end NgxWasm.Socket.HttpReader
