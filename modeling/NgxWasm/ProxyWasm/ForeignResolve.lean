import NgxWasm.Access.Check
import NgxWasm.ProxyWasm.Basic
import NgxWasm.ProxyWasm.GuestData

/-!
# The `resolve` foreign function (ngx_proxy_wasm_foreign_call.c)

`ngx_proxy_wasm_foreign_call_resolve` (277-432), called by
`ngx_proxy_wasm_hfuncs_call_foreign_function` (ngx_proxy_wasm_host.c 1861-1897), and
`ngx_proxy_wasm_hfuncs_resolve_handler` (81-180). The name stays in the memory of the
guest: `ctx->name` is the address it was lifted to. nginx's resolver answers at any
time; between two answers the guest writes to its memory.
-/

namespace NgxWasm.ProxyWasm.ForeignResolve

open NgxWasm NgxWasm.Lib.LongestMatch NgxWasm.Wavm NgxWasm.Access.Check
open NgxWasm.ProxyWasm.GuestData (Allocator)

/-! ### Answers -/

/-- `sin_addr` or `sin6_addr` of an answer. -/
inductive Address where
  | inet (addr : InAddr)
  | inet6 (addr : BitVec 128)
  deriving DecidableEq

def Address.sockaddr : Address → Sockaddr
  | .inet addr => .inet addr
  | .inet6 addr => .inet6 addr

def inAddrBytes (a : InAddr) : Bytes :=
  [UInt8.ofBitVec a.b0, UInt8.ofBitVec a.b1, UInt8.ofBitVec a.b2, UInt8.ofBitVec a.b3]

def in6AddrBytes (b : BitVec 128) : Bytes :=
  (List.range 16).map fun i => UInt8.ofBitVec (b.extractLsb' (8 * (15 - i)) 8)

/-- `ctx->state`, `ctx->addrs` and `ngx_random`. -/
structure Answer where
  failed : Bool
  addrs : List Address
  random : ℕ
  deriving DecidableEq

def Answer.pick (answer : Answer) : Option Address :=
  if answer.failed || answer.addrs.length == 0 then none
  else
    let i := if answer.addrs.length = 1 then 0 else answer.random % answer.addrs.length
    answer.addrs[i]?

/-! ### The arguments of the callback -/

/-- `buf` and `p`. -/
structure Cursor where
  buf : Bytes
  p : ℕ
  deriving DecidableEq

/-- `p = ngx_cpymem(p, ...)`. -/
def Cursor.cpymem (c : Cursor) (bytes : Bytes) : Cursor :=
  ⟨c.buf.take c.p ++ (bytes ++ c.buf.drop (c.p + bytes.length)), c.p + bytes.length⟩

/-- `buf` holds the name, the longest address and its length. -/
def zeroed (name : Bytes) : Cursor := ⟨List.replicate (name.length + (16 + 1)) 0, 0⟩

def writeAddress (c : Cursor) : Option Address → Cursor
  | some (.inet6 addr) => (c.cpymem [16]).cpymem (in6AddrBytes addr)
  | some (.inet addr) => (c.cpymem [4]).cpymem (inAddrBytes addr)
  -- the byte that is skipped is 0
  | none => { c with p := c.p + 1 }

def handlerArgs (name : Bytes) (addr : Option Address) : Bytes :=
  let c := (writeAddress (zeroed name) addr).cpymem name
  c.buf.take c.p

def readSlice (mem : Memory) (name : Slice) : Bytes :=
  match name.data with
  | none => []
  | some q => (List.range name.len.toNat).map fun i => mem.heap q.area (q.off + i)

/-! ### Calls and answers -/

/-- How a lookup goes: nothing was started, the answer came at once, or it comes later. -/
inductive Start where
  | failed
  | sync (answer : Answer) (push buf : Bool) (guest : Allocator)
  | async

inductive Input where
  /-- The guest stores to its memory. -/
  | write (p : BitVec 32) (bytes : Bytes)
  | resolve (step : Step) (name len retData retSize : BitVec 32) (start : Start)
  | answer (id : ℕ) (answer : Answer) (push buf : Bool)

inductive Outcome where
  | trap
  | ok
  | invalidMemAccess
  | returned (p : BitVec 32) (data : Bytes)
  /-- `on_foreign_function` is called with these arguments. -/
  | callback (args : Bytes)
  | nothing
  deriving DecidableEq

section
variable {T4 : Table 32 Tag} {T6 : Table 128 Tag}

structure State (T4 : Table 32 Tag) (T6 : Table 128 Tag) where
  memory : Memory
  /-- `rexec->acl`. -/
  acl : Option (Acl T4 T6)
  /-- `ctx->name` of each lookup, until its answer. -/
  calls : List (Option Slice)

/-- The address that is handed out; `push` says that `ngx_wasm_acl_add_addr` gets memory. -/
def admitAnswer (acl : Option (Acl T4 T6)) (answer : Answer) (push : Bool) :
    Option (Acl T4 T6) × Option Address :=
  match answer.pick with
  | none => (acl, none)
  | some addr =>
    match acl with
    | none => (none, some addr)
    | some acl =>
      let r := addAddr acl addr.sockaddr push
      (some r.1, if r.2 ≠ .ok then none else some addr)

/-- Up to `call->args_out`; `buf` says that the buffer was allocated. -/
def resolveHandler (s : State T4 T6) (name : Slice) (answer : Answer) (push buf : Bool) :
    State T4 T6 × Option Bytes :=
  let r := admitAnswer s.acl answer push
  ({ s with acl := r.1 }, if buf then some (handlerArgs (readSlice s.memory name) r.2) else none)

def writeGuest (mem : Memory) (p : BitVec 32) (bytes : Bytes) : Memory :=
  if p.toNat + bytes.length ≤ mem.size then mem.store ⟨mem.base, p.toNat⟩ bytes else mem

/-- The end of a lookup that was answered at once: the address goes to the guest. -/
def returnAddress (s : State T4 T6) (args : Bytes) (guest : Allocator) (retData retSize : HostPtr) :
    State T4 T6 × Outcome :=
  let size := (args.headD 0).toNat
  let answer := guest s.memory (BitVec.ofNat 32 size)
  let p := answer.1.getD 0
  let s := { s with memory := answer.2 }
  if p = 0 then (s, .trap)
  else
    let data := (args.drop 1).take size
    match memoryMemcpy s.memory p data with
    | none => (s, .invalidMemAccess)
    | some memory =>
      let memory := memory.store retData (u32Bytes p.toNat)
      let memory := memory.store retSize (u32Bytes size)
      ({ s with memory }, .returned p data)

def canResolve : Step → Bool
  | .reqHeaders | .reqBody | .tick | .dispatchResponse | .foreignCallback => true
  | _ => false

variable (cidrMatch : Sockaddr → List Cidr → Bool) (names : Names)

def refused (s : State T4 T6) (host : Bytes) : Bool :=
  match s.acl with
  | none => false
  | some acl => checkHost cidrMatch names acl host != .ok

def foreignCallResolve (s : State T4 T6) (step : Step) (fargs : Slice) (retData retSize : HostPtr)
    (start : Start) : State T4 T6 × Outcome :=
  if canResolve step = false then (s, .trap)
  else if fargs.len = 0 then (s, .trap)
  else if refused cidrMatch names s (readSlice s.memory fargs) then (s, .trap)
  else
    match start with
    | .failed => (s, .trap)
    | .sync answer push buf guest =>
      match resolveHandler s fargs answer push buf with
      | (s, none) => (s, .trap)
      | (s, some args) => returnAddress s args guest retData retSize
    | .async => ({ s with calls := s.calls ++ [some fargs] }, .ok)

/-- The function called is `resolve`. -/
def callForeignFunction (s : State T4 T6) (step : Step) (name len retData retSize : BitVec 32)
    (start : Start) : State T4 T6 × Outcome :=
  match hostLiftSlice s.memory name (.arg len), hostLift s.memory retData,
      hostLift s.memory retSize with
  | some fargs, some retData, some retSize =>
    foreignCallResolve cidrMatch names s step fargs retData retSize start
  | _, _, _ => (s, .trap)

/-- An answer that comes later ends in `ngx_proxy_wasm_foreign_callback`. -/
def onAnswer (s : State T4 T6) (id : ℕ) (answer : Answer) (push buf : Bool) :
    State T4 T6 × Outcome :=
  match s.calls[id]? with
  | some (some name) =>
    match resolveHandler { s with calls := s.calls.set id none } name answer push buf with
    | (s, none) => (s, .nothing)
    | (s, some args) => (s, .callback args)
  | _ => (s, .nothing)

def step (s : State T4 T6) : Input → State T4 T6 × Outcome
  | .write p bytes => ({ s with memory := writeGuest s.memory p bytes }, .nothing)
  | .resolve step name len retData retSize start =>
    callForeignFunction cidrMatch names s step name len retData retSize start
  | .answer id answer push buf => onAnswer s id answer push buf

end

end NgxWasm.ProxyWasm.ForeignResolve
