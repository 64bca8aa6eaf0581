import NgxWasm.Wavm.Memory
import NgxWasm.ProxyWasm.Pairs

/-!
# Host functions that return data to the guest

`ngx_proxy_wasm_alloc` (ngx_proxy_wasm.c 952-977) and, of
`ngx_proxy_wasm_host.c`, `get_buffer` (320-458), `get_header_map_pairs`
(570-607), `get_header_map_value` (610-653), `get_property` (904-968),
`get_shared_data` (1288-1360), `dequeue_shared_queue` with `shared_queue_alloc`
(1537-1621) and `get_configuration` (1902-1934). What a function finds to return
(a header, a property, a message) is an argument; the allocator is any function
of the guest.
-/

namespace NgxWasm.ProxyWasm.GuestData

open NgxWasm NgxWasm.Wavm NgxWasm.ProxyWasm.Pairs

inductive Result where
  | notFound
  | badArgument
  | internalFailure
  | invalidMemAccess
  | empty
  deriving Repr, DecidableEq

structure Block where
  ptr : BitVec 32
  bytes : Bytes
  deriving Repr, DecidableEq

inductive Answer where
  /-- `NGX_PROXY_WASM_RESULT_OK`, with the block that was returned. -/
  | ok (block : Option Block)
  | failed (result : Result)
  | trapped
  deriving Repr, DecidableEq

/-- A host function under way. -/
structure Call where
  mem : Memory
  /-- For each write, the area it went to and the area of the memory by then. -/
  writes : List (ℕ × ℕ)

def enter (mem : Memory) : Call := ⟨mem, []⟩

def Call.put (c : Call) (q : HostPtr) (bytes : Bytes) : Call :=
  { mem := c.mem.store q bytes, writes := c.writes ++ [(q.area, c.mem.base)] }

/-- `proxy_on_memory_allocate`: any answer, and any memory left behind. -/
abbrev Allocator := Memory → BitVec 32 → Option (BitVec 32) × Memory

def proxyWasmAlloc (guest : Allocator) (c : Call) (size : ℕ) : BitVec 32 × Call :=
  let answer := guest c.mem (BitVec.ofNat 32 size)
  -- 0 where the call failed
  (answer.1.getD 0, { c with mem := answer.2 })

/-- Lifting `size` bytes at `p` and copying `bytes` there. -/
def Call.fill (c : Call) (p : BitVec 32) (size : ℕ) (bytes : Bytes) : Option Call :=
  match memoryLift c.mem p (BitVec.ofNat 32 size) 1 with
  | .bad => none
  | .null => some c
  | .at q => some (c.put q bytes)

def Call.memcpy (c : Call) (p : BitVec 32) (buf : Bytes) : Option Call := c.fill p buf.length buf

def Call.cpymem (c : Call) (p : BitVec 32) (buf : Bytes) : BitVec 32 × Call :=
  match c.memcpy p buf with
  | none => (0, c)
  | some c => (p + BitVec.ofNat 32 buf.length, c)

/-- The common end: the block is filled, then the addresses lifted at the start
are written through. -/
def returnBlock (guest : Allocator) (c : Call) (rbuf rlen : HostPtr) (bytes : Bytes)
    (nomem bad : Answer) : Answer × Call :=
  let (p, c) := proxyWasmAlloc guest c bytes.length
  if p = 0 then (nomem, c)
  else
    match c.memcpy p bytes with
    | none => (bad, c)
    | some c =>
      let c := c.put rbuf (u32Bytes p.toNat)
      let c := c.put rlen (u32Bytes bytes.length)
      (.ok (some ⟨p, bytes⟩), c)

def getHeaderMapValue (mem : Memory) (guest : Allocator) (args : ℕ → BitVec 32)
    (mapsGet : Slice → Option Bytes) (abi010 : Bool) : Answer × Call :=
  match hostLiftSlice mem (args 1) (.arg (args 2)), hostLift mem (args 3),
    hostLift mem (args 4) with
  | some key, some rbuf, some rlen =>
    match mapsGet key with
    | none =>
      if abi010 then (.ok none, (enter mem).put rlen (u32Bytes 0))
      else (.failed .notFound, enter mem)
    | some value =>
      returnBlock guest (enter mem) rbuf rlen value (.failed .internalFailure)
        (.failed .invalidMemAccess)
  | _, _, _ => (.trapped, enter mem)

/-- `ngx_proxy_wasm_marshal` asks for `pairs_size` bytes and checks the block
against the memory itself before it lifts it. -/
def getHeaderMapPairs (mem : Memory) (guest : Allocator) (args : ℕ → BitVec 32)
    (getAll : Option (HeaderList × List Elt)) (maxPairs : ℕ) : Answer × Call :=
  match hostLift mem (args 1), hostLift mem (args 2) with
  | some rbuf, some rlen =>
    match getAll with
    | none => (.failed .badArgument, enter mem)
    | some (list, extras) =>
      let size := pairsSize list (some extras) maxPairs
      let (p, c) := proxyWasmAlloc guest (enter mem) size
      if p = 0 then (.failed .invalidMemAccess, c)
      else if c.mem.size < p.toNat + size then (.failed .invalidMemAccess, c)
      else
        let bytes := (pairsMarshal list (some extras) maxPairs).1
        match c.fill p size bytes with
        | none => (.trapped, c)
        | some c =>
          let c := c.put rbuf (u32Bytes p.toNat)
          let c := c.put rlen (u32Bytes size)
          (.ok (some ⟨p, bytes⟩), c)
  | _, _ => (.trapped, enter mem)

/-- `ngx_buf_t`: the bytes from `pos` to `last`, and those of the file for a buffer that is
only in one. Such a buffer has no range of memory (`pos` is null), or still the one that was
written to the file. `last` is `last_buf || last_in_chain`. -/
structure Buf where
  data : Bytes
  file : Option Bytes
  range : ∀ f ∈ file, data = [] ∨ data.length = f.length
  last : Bool

/-- The bytes that `ngx_buf_size` counts. -/
def Buf.bytes (b : Buf) : Bytes := b.file.getD b.data

/-- `buf->pos`, with the bytes up to `last`. -/
def Buf.pos (b : Buf) : Option Bytes := if b.file.isSome ∧ b.data = [] then none else some b.data

/-- What the buffer type named in the arguments resolves to. -/
inductive Source where
  /-- A configuration: `start` is set. -/
  | plain (bytes : Bytes)
  /-- A chain of buffers. -/
  | chain (first : Buf) (rest : List Buf)
  /-- The function returns without a buffer. -/
  | failed (answer : Option Result)

def Source.bufs : Source → List Buf
  | .chain first rest => first :: rest
  | _ => []

/-- What `ngx_wasm_chain_len` counts and the copy loop visits. -/
def visited : List Buf → List Buf
  | [] => []
  | b :: bufs => if b.last then [b] else b :: visited bufs

def Source.bytes : Source → Bytes
  | .plain bytes => bytes
  | source => (visited source.bufs).flatMap Buf.bytes

/-- `start`, which is that of the buffer if there is only one. -/
def Source.start : Source → Option Bytes
  | .plain bytes => some bytes
  | .chain first [] => first.pos
  | _ => none

/-- The copy loop; `none` for `NGX_PROXY_WASM_RESULT_INVALID_MEM_ACCESS`. -/
def copyChain (maxLen : ℕ) : List Buf → ℕ → BitVec 32 → Call → Option Call
  | [], _, _, c => some c
  | b :: bufs, len, p, c =>
    let len := len + b.data.length
    -- "break after copy": len is cleared, the loop goes on
    let chunkLen := if maxLen < len then b.data.length - (len - maxLen) else b.data.length
    let len := if maxLen < len then 0 else len
    if chunkLen = 0 then
      if b.last then some c else copyChain maxLen bufs len p c
    else
      let (p, c) := c.cpymem p (b.data.take chunkLen)
      if p = 0 then none
      else if b.last then some c
      else copyChain maxLen bufs len p c

def copySource (maxLen len : ℕ) (source : Source) (p : BitVec 32) (c : Call) : Option Call :=
  match source.start with
  | some start => c.memcpy p (start.take len)
  | none => copyChain maxLen source.bufs 0 p c

/-- What `get_buffer` does with the buffer it has found. -/
def returnBuffer (guest : Allocator) (c : Call) (rbuf rlen : HostPtr) (offset maxLen : ℕ)
    (source : Source) : Answer × Call :=
  let len := min source.bytes.length maxLen
  if (offset + len) % 2 ^ 64 < offset then (.failed .internalFailure, c)
  else if len = 0 then (.ok none, c)
  else
    let (p, c) := proxyWasmAlloc guest c len
    if p = 0 then (.failed .internalFailure, c)
    else
      let c := c.put rbuf (u32Bytes p.toNat)
      let c := c.put rlen (u32Bytes len)
      match copySource maxLen len source p c with
      | none => (.failed .invalidMemAccess, c)
      | some c => (.ok (some ⟨p, source.bytes.take len⟩), c)

def getBuffer (mem : Memory) (guest : Allocator) (args : ℕ → BitVec 32) (source : Source) :
    Answer × Call :=
  let offset := ((args 1).signExtend 64).toNat
  let maxLen := ((args 2).signExtend 64).toNat
  match hostLift mem (args 3), hostLift mem (args 4) with
  | some rbuf, some rlen =>
    match source with
    | .failed none => (.trapped, enter mem)
    | .failed (some r) => (.failed r, enter mem)
    | source => returnBuffer guest (enter mem) rbuf rlen offset maxLen source
  | _, _ => (.trapped, enter mem)

inductive Property where
  | declined
  | error (trap : Bool)
  | ok (value : Bytes)
  deriving Repr, DecidableEq

def getProperty (mem : Memory) (guest : Allocator) (args : ℕ → BitVec 32)
    (propertiesGet : Slice → Property) : Answer × Call :=
  match hostLiftSlice mem (args 0) (.arg (args 1)), hostLift mem (args 2),
    hostLift mem (args 3) with
  | some path, some retData, some retSize =>
    match propertiesGet path with
    | .declined => (.failed .notFound, enter mem)
    | .error true => (.trapped, enter mem)
    | .error false => (.failed .internalFailure, enter mem)
    | .ok value =>
      returnBlock guest (enter mem) retData retSize value (.failed .internalFailure)
        (.failed .invalidMemAccess)
  | _, _, _ => (.trapped, enter mem)

inductive Shared where
  /-- The namespace does not resolve. -/
  | unresolved
  | declined
  | ok (value : Bytes) (cas : ℕ)
  deriving Repr, DecidableEq

def getSharedData (mem : Memory) (guest : Allocator) (args : ℕ → BitVec 32)
    (kvGet : Slice → Shared) : Answer × Call :=
  match hostLiftSlice mem (args 0) (.arg (args 1)), hostLift mem (args 2),
    hostLift mem (args 3), hostLift mem (args 4) with
  | some key, some valueData, some valueSize, some cas =>
    match kvGet key with
    | .unresolved => (.trapped, enter mem)
    | .declined => (.failed .notFound, enter mem)
    | .ok value n =>
      -- ngx_wa_shm_kv_get_locked stores *cas
      returnBlock guest ((enter mem).put cas (u32Bytes n)) valueData valueSize value .trapped
        .trapped
  | _, _, _, _ => (.trapped, enter mem)

inductive Pop where
  | unresolved
  | empty
  | message (data : Bytes)
  deriving Repr, DecidableEq

/-- `shared_queue_alloc` runs inside `ngx_wa_shm_queue_pop_locked`, which copies
the message to the address it returns; an empty message is not allocated. -/
def dequeueSharedQueue (mem : Memory) (guest : Allocator) (args : ℕ → BitVec 32) (pop : Pop) :
    Answer × Call :=
  match hostLift mem (args 1), hostLift mem (args 2) with
  | some wasmDataPtr, some wasmDataSize =>
    match pop with
    | .unresolved => (.trapped, enter mem)
    | .empty => (.failed .empty, enter mem)
    | .message data =>
      if data.length = 0 then
        let c := (enter mem).put wasmDataPtr (u32Bytes 0)
        let c := c.put wasmDataSize (u32Bytes 0)
        (.ok (some ⟨0, []⟩), c)
      else
        returnBlock guest (enter mem) wasmDataPtr wasmDataSize data (.failed .internalFailure)
          (.failed .internalFailure)
  | _, _ => (.trapped, enter mem)

def getConfiguration (mem : Memory) (guest : Allocator) (args : ℕ → BitVec 32)
    (config : Bytes) : Answer × Call :=
  match hostLift mem (args 0), hostLift mem (args 1) with
  | some rbuf, some rlen =>
    if config.length = 0 then (.ok none, enter mem)
    else
      returnBlock guest (enter mem) rbuf rlen config (.failed .internalFailure)
        (.failed .invalidMemAccess)
  | _, _ => (.trapped, enter mem)

/-- A call of one of the functions, with what it finds to return. -/
inductive DataCall where
  | getHeaderMapValue (args : ℕ → BitVec 32) (mapsGet : Slice → Option Bytes) (abi010 : Bool)
  | getHeaderMapPairs (args : ℕ → BitVec 32) (getAll : Option (HeaderList × List Elt))
      (maxPairs : ℕ)
  | getBuffer (args : ℕ → BitVec 32) (source : Source)
  | getProperty (args : ℕ → BitVec 32) (propertiesGet : Slice → Property)
  | getSharedData (args : ℕ → BitVec 32) (kvGet : Slice → Shared)
  | dequeueSharedQueue (args : ℕ → BitVec 32) (pop : Pop)
  | getConfiguration (args : ℕ → BitVec 32) (config : Bytes)

def DataCall.run (mem : Memory) (guest : Allocator) : DataCall → Answer × Call
  | .getHeaderMapValue args mapsGet abi010 => GuestData.getHeaderMapValue mem guest args mapsGet abi010
  | .getHeaderMapPairs args getAll maxPairs =>
    GuestData.getHeaderMapPairs mem guest args getAll maxPairs
  | .getBuffer args source => GuestData.getBuffer mem guest args source
  | .getProperty args propertiesGet => GuestData.getProperty mem guest args propertiesGet
  | .getSharedData args kvGet => GuestData.getSharedData mem guest args kvGet
  | .dequeueSharedQueue args pop => GuestData.dequeueSharedQueue mem guest args pop
  | .getConfiguration args config => GuestData.getConfiguration mem guest args config

/-- The arguments that name the locations of the address and of the length. -/
def DataCall.outPtrs : DataCall → BitVec 32 × BitVec 32
  | .getHeaderMapValue args _ _ => (args 3, args 4)
  | .getHeaderMapPairs args _ _ => (args 1, args 2)
  | .getBuffer args _ => (args 3, args 4)
  | .getProperty args _ => (args 2, args 3)
  | .getSharedData args _ => (args 2, args 3)
  | .dequeueSharedQueue args _ => (args 1, args 2)
  | .getConfiguration args _ => (args 0, args 1)

end NgxWasm.ProxyWasm.GuestData
