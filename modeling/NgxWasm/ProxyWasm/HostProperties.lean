import NgxWasm.Http.Headers
import NgxWasm.Lib.SearchTree
import NgxWasm.Shm.Kv
import Mathlib.Data.Prod.Lex
import Mathlib.Order.Lex
import Mathlib.Data.List.Lex

/-!
# The host properties of a request (ngx_proxy_wasm_properties.c)

`ngx_proxy_wasm_properties_get` and `ngx_proxy_wasm_properties_set`
(1136-1284) classify a path; those of the host namespace are kept in an rbtree
of `host_props_node_t` by `ngx_proxy_wasm_properties_get_host`,
`set_hpn_value` and `ngx_proxy_wasm_properties_set_host` (994-1133). Nodes and
values are allocated in the pool of the context; of what is freed only the
blocks larger than `pool->max` are given back.
-/

namespace NgxWasm.ProxyWasm.HostProperties
open NgxWasm NgxWasm.Lib NgxWasm.Lib.SearchTree
open NgxWasm.Http.Headers (ascii)
open NgxWasm.Shm.Kv (crc32)

/-! ### Paths -/

def replaceNullsByDots (path : Bytes) : Bytes := path.map fun b => if b = 0 then 46 else b

def ngxPrefix : Bytes := ascii "ngx."

def hostPrefix : Bytes := ascii "wasmx."

def hasPrefix (pre p : Bytes) : Bool := pre.length < p.length && p.take pre.length == pre

/-- An entry of `pw2ngx`: mapped to an nginx variable or to a getter. -/
inductive Mapping where
  | variable (pwmKey ngxKey : String)
  | attribute (pwmKey : String)
  deriving Repr, DecidableEq

def Mapping.pwmKey : Mapping → String
  | .variable k _ => k
  | .attribute k => k

def pw2ngx : List Mapping :=
  [.variable "request.path" "ngx.request_uri", .variable "request.url_path" "ngx.uri",
   .variable "request.host" "ngx.hostname", .variable "request.scheme" "ngx.scheme",
   .variable "request.method" "ngx.request_method",
   .variable "request.useragent" "ngx.http_user_agent",
   .variable "request.protocol" "ngx.server_protocol", .variable "request.query" "ngx.args",
   .attribute "request.id", .attribute "request.referer", .attribute "request.time",
   .variable "request.duration" "ngx.request_time", .variable "request.size" "ngx.content_length",
   .variable "request.total_size" "ngx.request_length", .attribute "request.headers.*",
   .attribute "request.is_subrequest", .variable "response.code" "ngx.status",
   .variable "response.size" "ngx.body_bytes_sent",
   .variable "response.total_size" "ngx.bytes_sent", .attribute "response.grpc_status",
   .attribute "response.trailers", .attribute "response.code_details", .attribute "response.flags",
   .attribute "response.headers.*", .attribute "upstream.address", .attribute "upstream.status",
   .attribute "upstream.connect_time", .attribute "upstream.response_time",
   .attribute "upstream.header_time", .attribute "upstream.tls_version",
   .attribute "upstream.subject_local_certificate", .attribute "upstream.subject_peer_certificate",
   .attribute "upstream.dns_san_local_certificate", .attribute "upstream.dns_san_peer_certificate",
   .attribute "upstream.uri_san_local_certificate", .attribute "upstream.uri_san_peer_certificate",
   .attribute "upstream.sha256_peer_certificate_digest", .attribute "upstream.local_address",
   .attribute "upstream.transport_failure_reason",
   .variable "destination.address" "ngx.proxy_protocol_addr",
   .variable "destination.port" "ngx.proxy_protocol_port",
   .variable "connection.requested_server_name" "ngx.ssl_server_name",
   .variable "connection.tls_version" "ngx.ssl_protocol",
   .variable "connection.subject_local_certificate" "ngx.ssl_client_s_dn",
   .attribute "connection.id", .attribute "connection.mtls",
   .attribute "connection.subject_peer_certificate",
   .attribute "connection.dns_san_local_certificate",
   .attribute "connection.dns_san_peer_certificate",
   .attribute "connection.uri_san_local_certificate",
   .attribute "connection.uri_san_peer_certificate",
   .attribute "connection.sha256_peer_certificate_digest",
   .attribute "connection.termination_details", .variable "source.address" "ngx.remote_addr",
   .variable "source.port" "ngx.remote_port", .attribute "plugin_name", .attribute "plugin_root_id",
   .attribute "plugin_vm_id", .attribute "node", .attribute "cluster_name",
   .attribute "cluster_metadata", .attribute "listener_direction", .attribute "listener_metadata",
   .attribute "route_name", .attribute "route_metadata", .attribute "upstream_host_metadata",
   .attribute "worker_id"]

/-- A key that ends in `*` stands for the paths that go on after its dot. -/
def Mapping.covers (m : Mapping) (p : Bytes) : Bool :=
  let k := ascii m.pwmKey
  if k.getLast? = some 42 then hasPrefix k.dropLast p else k == p

/-- `ngx_hash_find_combined` on the hash made of `pw2ngx`. -/
def findCombined (p : Bytes) : Option Mapping := pw2ngx.find? (·.covers p)

/-! ### The store -/

/-- `ngx_pool_t`: a block that was freed holds nothing. -/
structure Pool where
  max : ℕ
  next : ℕ
  block : ℕ → Option Bytes

def Pool.pcalloc (pool : Pool) : ℕ × Pool := (pool.next, { pool with next := pool.next + 1 })

def Pool.pstrdup (pool : Pool) (src : Bytes) : ℕ × Pool :=
  (pool.next, { pool with
    next := pool.next + 1
    block := Function.update pool.block pool.next (some src) })

/-- `ngx_pfree`: small blocks stay until the pool goes. -/
def Pool.pfree (pool : Pool) (p : Option ℕ) : Pool :=
  match p with
  | none => pool
  | some a =>
    match pool.block a with
    | none => pool
    | some bytes =>
      if pool.max < bytes.length then
        { pool with block := Function.update pool.block a none }
      else pool

/-- `host_props_node_t`; `data` is the address of the value. -/
structure Node where
  str : Bytes
  data : Option ℕ
  isConst : Bool
  isConstNull : Bool
  deriving Repr, DecidableEq

/-- The order of `ngx_str_rbtree_insert_value`: hash, length, bytes. -/
abbrev StrKey := ℕ ×ₗ ℕ ×ₗ List ℕ

def strKey (s : Bytes) : StrKey := toLex (crc32 s, toLex (s.length, s.map UInt8.toNat))

abbrev StrRbtreeOps := Ops ℕ Node fun n => strKey n.str

/-- `ngx_proxy_wasm_ctx_t`. -/
structure Ctx where
  /-- `rctx && !rctx->fake_request`. -/
  request : Bool
  pool : Pool
  tree : SearchTree.Tree ℕ
  node : ℕ → Node

def newCtx (max : ℕ) : Ctx :=
  ⟨true, ⟨max, 0, fun _ => none⟩, .leaf, fun _ => ⟨[], none, false, false⟩⟩

/-- A return code, and what is read through the value it leaves the caller. -/
structure Answer where
  rc : Rc
  value : Option Bytes
  deriving Repr, DecidableEq

/-- Which of the allocations of a call are granted. -/
structure Grant where
  node : Bool
  dup : Bool
  deriving Repr, DecidableEq

/-- `host_props_ffi_getter` and `host_props_ffi_setter`. -/
structure FfiHandlers where
  getter : Option (Ctx → Bytes → Ctx × Answer)
  setter : Option (Ctx → Bytes → Option Bytes → Ctx × Answer)

def noFfiHandlers : FfiHandlers := ⟨none, none⟩

/-- What the paths outside the host namespace answer. -/
structure Attributes where
  getNgx : Ctx → Bytes → Answer
  setNgx : Ctx → Bytes → Option Bytes → Rc
  getter : String → Ctx → Bytes → Answer

def lookupNode (ctx : Ctx) (path : Bytes) : Option ℕ :=
  lookup (fun a => strKey (ctx.node a).str) (strKey path) ctx.tree

def readData (ctx : Ctx) (n : Node) : Option Bytes := n.data.bind ctx.pool.block

section
variable (ops : StrRbtreeOps) (ffi : FfiHandlers) (attrs : Attributes)

def propertiesGetHost (ctx : Ctx) (path : Bytes) : Answer :=
  match lookupNode ctx path with
  | none => ⟨.declined, none⟩
  | some a =>
    -- a stored value that is not const does not stand for the getter
    if ffi.getter.isSome && !(ctx.node a).isConst then ⟨.declined, none⟩
    else if (ctx.node a).isConstNull then ⟨.busy, none⟩
    else ⟨.ok, readData ctx (ctx.node a)⟩

/-- `value` is `none` where `value->data` is NULL; `none` for a refused copy. -/
def setHpnValue (pool : Pool) (n : Node) (value : Option Bytes) (isConst dup : Bool) :
    Option (Pool × Node) :=
  match value with
  | none => some (pool, { n with isConstNull := true, isConst := isConst, data := none })
  | some v =>
    if dup then
      let (data, pool) := pool.pstrdup v
      some (pool, { n with isConst := isConst, data := some data })
    else none

def propertiesSetHost (ctx : Ctx) (path : Bytes) (value : Option Bytes) (isConst retrieve : Bool)
    (grant : Grant) : Ctx × Answer :=
  let answer (ctx : Ctx) (n : Node) : Answer := ⟨.ok, if retrieve then readData ctx n else none⟩
  match lookupNode ctx path with
  | some a =>
    let n := ctx.node a
    -- cannot overwrite a const
    if n.isConst then (ctx, ⟨.declined, none⟩)
    else
      let ctx := { ctx with pool := ctx.pool.pfree n.data }
      if value.isNone && !isConst then
        ({ ctx with tree := ops.delete ctx.tree a }, ⟨.ok, none⟩)
      else
        match setHpnValue ctx.pool n value isConst grant.dup with
        | none => (ctx, ⟨.error, none⟩)
        | some (pool, n) =>
          let ctx := { ctx with pool := pool, node := Function.update ctx.node a n }
          (ctx, answer ctx n)
  | none =>
    if value.isNone && !isConst then (ctx, ⟨.ok, none⟩)
    else if !grant.node then (ctx, ⟨.error, none⟩)
    else
      let (a, pool) := ctx.pool.pcalloc
      match setHpnValue pool ⟨path, none, false, false⟩ value isConst grant.dup with
      | none => ({ ctx with pool := pool }, ⟨.error, none⟩)
      | some (pool, n) =>
        let node := Function.update ctx.node a n
        let ctx := { ctx with pool := pool, node := node, tree := ops.insert node ctx.tree a }
        (ctx, answer ctx n)

def propertiesGet (ctx : Ctx) (path : Bytes) : Ctx × Answer :=
  let p := replaceNullsByDots path
  if !ctx.request && p.contains 46 then (ctx, ⟨.error, none⟩)
  else
    match findCombined p with
    | some (.variable _ ngxKey) => (ctx, attrs.getNgx ctx (ascii ngxKey))
    | some (.attribute k) => (ctx, attrs.getter k ctx p)
    | none =>
      if hasPrefix ngxPrefix p then (ctx, attrs.getNgx ctx p)
      else if hasPrefix hostPrefix p then
        -- a const value comes before an FFI getter
        let got := propertiesGetHost ffi ctx p
        if got.rc = .ok then (ctx, got)
        else if got.rc = .busy then (ctx, ⟨.declined, none⟩)
        else
          match ffi.getter with
          | some getter => getter ctx p
          | none => (ctx, got)
      else (ctx, ⟨.declined, none⟩)

def propertiesSet (ctx : Ctx) (path : Bytes) (value : Option Bytes) (grant : Grant) :
    Ctx × Answer :=
  let p := replaceNullsByDots path
  if !ctx.request && p.contains 46 then (ctx, ⟨.error, none⟩)
  else if hasPrefix ngxPrefix p then (ctx, ⟨attrs.setNgx ctx p value, none⟩)
  else
    match findCombined p with
    | some (.variable _ ngxKey) => (ctx, ⟨attrs.setNgx ctx (ascii ngxKey) value, none⟩)
    | _ =>
      if hasPrefix hostPrefix p then
        match ffi.setter with
        | some setter => setter ctx p value
        | none => propertiesSetHost ops ctx p value false false grant
      else (ctx, ⟨.declined, none⟩)

/-- `proxy_get_property`, `proxy_set_property` and
`ngx_proxy_wasm_properties_set_host`. -/
inductive Call where
  | get (path : Bytes)
  | set (path : Bytes) (value : Option Bytes) (grant : Grant)
  | setHost (path : Bytes) (value : Option Bytes) (isConst retrieve : Bool) (grant : Grant)
  deriving Repr, DecidableEq

def step (ctx : Ctx) : Call → Ctx × Answer
  | .get path => propertiesGet ffi attrs ctx path
  | .set path value grant => propertiesSet ops ffi attrs ctx path value grant
  | .setHost path value isConst retrieve grant =>
    propertiesSetHost ops ctx path value isConst retrieve grant

end

/-! ### Paths of the host namespace -/

theorem take_of_hasPrefix {pre p : Bytes} (h : hasPrefix pre p = true) :
    p.take pre.length = pre := by
  simp only [hasPrefix, Bool.and_eq_true, beq_iff_eq] at h
  exact h.2

/-- What a path has to start with to be covered by a key. -/
def Mapping.stem (m : Mapping) : Bytes :=
  let k := ascii m.pwmKey
  if k.getLast? = some 42 then k.dropLast else k

theorem take_of_covers {m : Mapping} {p : Bytes} (h : m.covers p = true) :
    p.take m.stem.length = m.stem := by
  simp only [Mapping.covers] at h
  simp only [Mapping.stem]
  split at h
  · rename_i hstar
    rw [if_pos hstar]
    exact take_of_hasPrefix h
  · rename_i hstar
    rw [if_neg hstar, ← beq_iff_eq.mp h, List.take_length]

theorem take_take_of_take {α : Type*} {p s t : List α} (hs : p.take s.length = s)
    (ht : p.take t.length = t) : s.take t.length = t.take s.length := by
  calc s.take t.length = p.take (min t.length s.length) := by
        rw [← List.take_take, hs]
    _ = p.take (min s.length t.length) := by rw [Nat.min_comm]
    _ = t.take s.length := by rw [← List.take_take, ht]

theorem stem_apart : ∀ m ∈ pw2ngx,
    m.stem.take hostPrefix.length ≠ hostPrefix.take m.stem.length := by
  decide

/-- No mapping stands before a path of the host namespace. -/
theorem findCombined_host {p : Bytes} (h : hasPrefix hostPrefix p = true) :
    findCombined p = none := by
  rw [findCombined, List.find?_eq_none]
  intro m hm hc
  exact stem_apart m hm (take_take_of_take (take_of_covers hc) (take_of_hasPrefix h))

theorem not_ngxPrefix_of_host {p : Bytes} (h : hasPrefix hostPrefix p = true) :
    hasPrefix ngxPrefix p = false := by
  cases hn : hasPrefix ngxPrefix p with
  | false => rfl
  | true =>
    have hclash := take_take_of_take (take_of_hasPrefix hn) (take_of_hasPrefix h)
    exact absurd hclash (by decide)

end NgxWasm.ProxyWasm.HostProperties
