import NgxWasm.Lib.Run
import Mathlib.Data.List.Basic
import Mathlib.Data.List.Nodup
import Mathlib.Tactic.Common

/-!
# Dispatched operations of a filter context

`ngx_proxy_wasm_dispatch_ops_total` and `ngx_proxy_wasm_dispatch_ops_cancel`
(ngx_proxy_wasm.c 897-946), `ngx_proxy_wasm_foreign_callback` and the resolver
handlers (ngx_proxy_wasm_foreign_call.c 21-275), the end of
`ngx_http_proxy_wasm_dispatch_resume_handler` (ngx_http_proxy_wasm_dispatch.c
869-962) and `ngx_proxy_wasm_hfuncs_send_local_response` (ngx_proxy_wasm_host.c
1133-1157). Cancelling destroys the socket of an HTTP call and the thread of a Lua
resolver, but a query to nginx's resolver that the socket waits for
(ngx_wasm_socket_tcp.c 381-446) is kept nowhere and is not cancelled: its answer
comes to the freed call. A foreign call is only freed: its resolver still answers.
-/

namespace NgxWasm.ProxyWasm.DispatchOps

open NgxWasm.Lib.Run

/-! ### Operations -/

inductive Kind where
  | http
  | resolve
  | resolveLua
  deriving Repr, DecidableEq

/-- `ngx_proxy_wasm_dispatch_op_t`; `id` stands for the pointer. -/
structure Op where
  id : ℕ
  kind : Kind
  deriving Repr, DecidableEq

inductive Event where
  /-- `ngx_queue_remove(&dop->q)`. -/
  | left (id : ℕ)
  /-- The guest callback of the operation runs. -/
  | callback (id : ℕ)
  | cancelled (id : ℕ)
  /-- The action is set to CONTINUE with so many operations left. -/
  | continued (pending : ℕ)
  deriving Repr, DecidableEq

/-- `ops` is `pwexec->dispatch_ops`; `outstanding` holds the operations whose socket
or resolver will still call a completion handler; `queries`, the HTTP calls that
nginx's resolver has not answered, one entry for each query. -/
structure Exec where
  ops : List Op
  outstanding : List Op
  queries : List ℕ
  next : ℕ
  trace : List Event
  deriving Repr, DecidableEq

def init : Exec := { ops := [], outstanding := [], queries := [], next := 0, trace := [] }

def Exec.emit (e : Exec) (ev : Event) : Exec := { e with trace := e.trace ++ [ev] }

def without (id : ℕ) (ops : List Op) : List Op := ops.filter fun op => op.id != id

/-- `ngx_queue_insert_head`. -/
def Exec.insert (e : Exec) (kind : Kind) : Exec :=
  { e with ops := ⟨e.next, kind⟩ :: e.ops, outstanding := ⟨e.next, kind⟩ :: e.outstanding,
           next := e.next + 1 }

/-- `ngx_queue_remove`. On an operation that left before it writes through stale
links; the queue is then left alone here. -/
def Exec.remove (e : Exec) (id : ℕ) : Exec :=
  { e with ops := without id e.ops, trace := e.trace ++ [.left id] }

def Exec.settle (e : Exec) (id : ℕ) : Exec :=
  { e with outstanding := without id e.outstanding }

/-- `ngx_http_proxy_wasm_dispatch_destroy`. What a query that is still open finds in the
freed call is not known: any answer can follow, so the call stays outstanding. -/
def Exec.destroyCall (e : Exec) (id : ℕ) : Exec := if id ∈ e.queries then e else e.settle id

/-- `ngx_resolve_name` of the socket. -/
def Exec.ask (e : Exec) (id : ℕ) : Exec := { e with queries := id :: e.queries }

def Exec.answered (e : Exec) (id : ℕ) : Exec := { e with queries := e.queries.erase id }

def cancelOps : List Op → Exec → Exec
  | [], e => e
  | op :: rest, e =>
    let e := (e.remove op.id).emit (.cancelled op.id)
    match op.kind with
    | .http => cancelOps rest (e.destroyCall op.id)
    | _ => cancelOps rest e

def dispatchOpsCancel (e : Exec) : Exec := cancelOps e.ops e

/-- What guest code can call. -/
inductive HostCall where
  | dispatch (ok : Bool)
  | resolve (kind : Kind) (async : Bool)
  /-- `stashed` says that the response was stashed and not written at once. -/
  | localResponse (stashed : Bool)
  deriving Repr, DecidableEq

def hostCall (e : Exec) : HostCall → Exec × Unit
  | .dispatch ok => (if ok then e.insert .http else e, ())
  | .resolve kind async => (if async then e.insert kind else e, ())
  | .localResponse stashed => (if stashed then dispatchOpsCancel e else e, ())

/-- A guest callback of the operation that makes these calls. -/
def callback (e : Exec) (id : ℕ) (calls : List HostCall) : Exec :=
  (exec hostCall (e.emit (.callback id)) calls).1

/-- `done:` of the completion handlers. -/
def finish (e : Exec) : Exec :=
  if e.ops.length ≠ 0 then e else e.emit (.continued e.ops.length)

inductive Answer where
  /-- The socket goes on connecting, sending or receiving; `asks` says that it asks
  nginx's resolver first. -/
  | progress (asks : Bool)
  /-- Nginx's resolver has the address of the host of an HTTP call; the socket connects. -/
  | resolved
  /-- It has none; `failed` follows. -/
  | unresolved (calls : Option (List HostCall))
  /-- The response is complete, or the name of a foreign call is resolved. -/
  | received (calls : List HostCall)
  /-- The call failed or the instance trapped; the callback runs if a context could
  be created for it. -/
  | failed (calls : Option (List HostCall))
  /-- The arguments of a foreign callback cannot be allocated. -/
  | nomem
  deriving Repr, DecidableEq

def httpError (e : Exec) (id : ℕ) : Option (List HostCall) → Exec
  | some calls => finish (callback ((e.remove id).destroyCall id) id calls)
  | none => finish ((e.remove id).destroyCall id)

def httpHandler (e : Exec) (id : ℕ) : Answer → Exec
  | .progress asks => finish (if asks then e.ask id else e)
  | .resolved => e.answered id
  | .unresolved calls => httpError (e.answered id) id calls
  | .received calls => finish (callback ((e.remove id).destroyCall id) id calls)
  | .failed calls => httpError e id calls
  | .nomem => e

def resolveHandler (lua : Bool) (e : Exec) (id : ℕ) : Answer → Exec
  | .progress _ => e
  | .resolved => e
  | .unresolved _ => e
  | .received calls => finish (callback ((e.settle id).remove id) id calls)
  | .failed (some calls) => finish (callback ((e.settle id).remove id) id calls)
  | .failed none => finish ((e.settle id).remove id)
  -- the handler for Lua has no ngx_queue_remove on this path
  | .nomem => if lua then e.settle id else (e.settle id).remove id

def complete (e : Exec) (id : ℕ) (answer : Answer) : Exec :=
  match e.outstanding.find? fun op => op.id == id with
  | none => e
  | some ⟨_, .http⟩ => httpHandler e id answer
  | some ⟨_, .resolve⟩ => resolveHandler false e id answer
  | some ⟨_, .resolveLua⟩ => resolveHandler true e id answer

inductive Input where
  /-- Any other callback of the context. -/
  | guest (calls : List HostCall)
  | complete (id : ℕ) (answer : Answer)
  /-- A handler whose resolver answered before it returned, and ended the call, comes to
  its own `done:`. -/
  | unwound
  deriving Repr, DecidableEq

def step (e : Exec) : Input → Exec × Unit
  | .guest calls => ((exec hostCall e calls).1, ())
  | .complete id answer => (complete e id answer, ())
  | .unwound => (finish e, ())

end NgxWasm.ProxyWasm.DispatchOps
