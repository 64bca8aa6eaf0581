import NgxWasm.ProxyWasm.Basic
import NgxWasm.Shm.Kv

/-!
# Plans of a location and the filters they load

`ngx_wasm_ops.c`: `ngx_wasm_ops_plan_add` (78-115) and `ngx_wasm_ops_plan_load` (118-210);
`ngx_proxy_wasm.c`: `get_filter_id` (115-132), `ngx_proxy_wasm_load` (135-171),
`ngx_proxy_wasm_lookup_filter` (1471-1496) and the loop of `ngx_proxy_wasm_ctx` (277-294) over
the ids of a plan. `ngx_http_wasm_ops_add_filter` (ngx_http_wasm_util.c 438-540) makes the
filter of a directive, and `ngx_http_wasm_init_process` loads the plans of all locations.
-/

namespace NgxWasm.Wasm.Plans

open NgxWasm NgxWasm.ProxyWasm NgxWasm.Lib.SearchTree
open NgxWasm.Shm.Kv (crc32 crc32Byte)

/-! ### Filters -/

/-- `ngx_proxy_wasm_filter_t`; `module` is the name of `filter->module`. -/
structure Filter where
  module : Option Bytes
  config : Bytes
  data : BitVec 64
  id : ℕ
  loaded : Bool
  deriving Repr, DecidableEq

/-- `ngx_proxy_wasm_filters_root_t` and the filters by their addresses. -/
structure Root where
  filter : ℕ → Filter
  tree : Lib.SearchTree.Tree ℕ

abbrev FilterOps := Ops ℕ Filter Filter.id

/-- `ngx_sprintf` with `%ld`: it knows `%l`, and copies the `d` behind it. -/
def sprintfLd (data : BitVec 64) : Bytes :=
  let digits (n : ℕ) : Bytes := (Nat.toDigits 10 n).map fun c => UInt8.ofNat c.toNat
  (if data.msb then 45 :: digits (2 ^ 64 - data.toNat) else digits data.toNat) ++ [100]

def crc32Update (hash : ℕ) (p : Bytes) : ℕ := p.foldl crc32Byte hash

def getFilterId (name config : Bytes) (data : BitVec 64) : ℕ :=
  crc32Update (crc32Update (crc32Update 0xFFFFFFFF name) config) (sprintfLd data) ^^^ 0xFFFFFFFF

def Root.set (w : Root) (f : ℕ) (filter : Filter) : Root :=
  { w with filter := Function.update w.filter f filter }

/-- `ngx_proxy_wasm_load`: `none` for `NGX_ERROR`. `abi` tells whether
`ngx_proxy_wasm_filter_init_abi` succeeds. -/
def proxyWasmLoad (rb : FilterOps) (abi : ℕ → Bool) (w : Root) (f : ℕ) : Option Root :=
  if (w.filter f).loaded then some w
  else
    match (w.filter f).module with
    | none => none
    | some name =>
      let id := getFilterId name (w.filter f).config (w.filter f).data
      let w := w.set f { w.filter f with id }
      let w := { w with tree := rb.insert w.filter w.tree f }
      if abi f then some (w.set f { w.filter f with loaded := true }) else none

def lookupFilter (w : Root) (id : ℕ) : Option ℕ := lookup (fun f => (w.filter f).id) id w.tree

/-- The filters of the contexts that `ngx_proxy_wasm_ctx` creates. -/
def pwCtx (w : Root) : List ℕ → Option (List ℕ)
  | [] => some []
  | id :: ids =>
    match lookupFilter w id with
    | none => none
    | some f => (pwCtx w ids).map (f :: ·)

/-! ### Plans -/

/-- `ngx_wasm_op_t`. A filter is held in a field of its op at `addr`. -/
inductive Op where
  | proxyWasm (filter : ℕ) (addr : BitVec 64)
  | call (phase : Phase) (func : Bytes)
  deriving Repr, DecidableEq

/-- `op->on_phases & phase->on`. -/
def Op.on : Op → Phase → Bool
  | .proxyWasm _ _, p => decide (p ≠ .preaccess)
  | .call q _, p => decide (p = q)

structure Plan where
  pipelines : Phase → List Op
  filterIds : List ℕ
  populated : Bool
  loaded : Bool

def planNew : Plan := ⟨fun _ => [], [], false, false⟩

def planAdd (s : Root × Plan) (op : Op) : Root × Plan :=
  let w := match op with
    | .proxyWasm f addr => s.1.set f { s.1.filter f with data := addr }
    | .call _ _ => s.1
  (w, { s.2 with
    pipelines := fun p => if op.on p then s.2.pipelines p ++ [op] else s.2.pipelines p
    populated := true })

/-- The phases by their index. -/
def phases : List Phase :=
  [.rewrite, .preaccess, .access, .content, .log, .headerFilter, .bodyFilter, .trailerFilter,
    .done, .background]

def loadOp (rb : FilterOps) (link : Op → Bool) (abi : ℕ → Bool) (w : Root) (op : Op) :
    Option Root :=
  if link op then
    match op with
    | .proxyWasm f _ => proxyWasmLoad rb abi w f
    | .call _ _ => some w
  else none

def filterId (w : Root) : Op → Option ℕ
  | .proxyWasm f _ => some (w.filter f).id
  | .call _ _ => none

/-- `link` tells whether `ngx_wavm_module_link` succeeds. -/
def planLoad (rb : FilterOps) (link : Op → Bool) (abi : ℕ → Bool) (w : Root) (plan : Plan) :
    Option (Root × Plan) :=
  if plan.loaded then some (w, plan)
  else
    match (phases.flatMap plan.pipelines).foldlM (loadOp rb link abi) w with
    | none => none
    | some w =>
      some (w, { plan with
        filterIds := (plan.pipelines .rewrite).filterMap (filterId w), loaded := true })

def initProcess (rb : FilterOps) (link : Op → Bool) (abi : ℕ → Bool) :
    List Plan → Root → Option (Root × List Plan)
  | [], w => some (w, [])
  | plan :: plans, w =>
    match planLoad rb link abi w plan with
    | none => none
    | some (w, plan) => (initProcess rb link abi plans w).map fun r => (r.1, plan :: r.2)

/-! ### Configurations -/

/-- A `proxy_wasm` directive and what is allocated for it: the filter and its op. -/
structure Directive where
  filter : ℕ
  addr : BitVec 64
  module : Bytes
  config : Bytes
  deriving Repr, DecidableEq

inductive Item where
  | proxyWasm (d : Directive)
  | wasmCall (phase : Phase) (func : Bytes)
  deriving Repr, DecidableEq

def Item.directive : Item → Option Directive
  | .proxyWasm d => some d
  | .wasmCall _ _ => none

def Item.op : Item → Op
  | .proxyWasm d => .proxyWasm d.filter d.addr
  | .wasmCall phase func => .call phase func

def addFilter (s : Root × Plan) (d : Directive) : Root × Plan :=
  planAdd (s.1.set d.filter ⟨some d.module, d.config, 0, 0, false⟩, s.2) (Item.proxyWasm d).op

def addItem (s : Root × Plan) : Item → Root × Plan
  | .proxyWasm d => addFilter s d
  | .wasmCall phase func => planAdd s (Item.wasmCall phase func).op

/-- The plans of the locations that have directives of their own, in order. -/
def configure : List (List Item) → Root → Root × List Plan
  | [], w => (w, [])
  | loc :: locs, w =>
    let s := loc.foldl addItem (w, planNew)
    let r := configure locs s.1
    (r.1, s.2 :: r.2)

def emptyRoot : Root := ⟨fun _ => ⟨none, [], 0, 0, false⟩, .leaf⟩

def directives (loc : List Item) : List Directive := loc.filterMap Item.directive

/-- The directives of all locations; each has its own filter. -/
structure Conf where
  locations : List (List Item)
  fresh : ((locations.flatMap directives).map Directive.filter).Nodup

def Conf.all (conf : Conf) : List Directive := conf.locations.flatMap directives

end NgxWasm.Wasm.Plans
