import NgxWasm.Http.HeaderHandlers
import NgxWasm.ProxyWasm.PairsSize

/-!
# Header maps of a filter (ngx_proxy_wasm_maps.c)

The host functions that add, replace and remove a header, set all of them or read
them (ngx_proxy_wasm_host.c, 620-900), over `ngx_proxy_wasm_maps_set` (327-440) and
`ngx_proxy_wasm_maps_get` (267-324), past `set_header_check`. Of the maps of a request
those of its own request and response headers can be set.
-/

namespace NgxWasm.ProxyWasm.HeaderMaps

open NgxWasm NgxWasm.ProxyWasm.Pairs NgxWasm.Http.Headers

/-! ### Special keys -/

/-- `ngx_proxy_wasm_maps_key_t`; `settable` says that `set_` is not `NULL`. -/
structure MapsKey where
  key : Bytes
  mapType : HType
  settable : Bool

def specialKeys : List MapsKey :=
  [⟨ascii ":path", .request, true⟩, ⟨ascii ":method", .request, true⟩,
    ⟨ascii ":scheme", .request, false⟩, ⟨ascii ":authority", .request, false⟩,
    ⟨ascii ":status", .response, true⟩]

def specialKey (ht : HType) (key : Bytes) : Option MapsKey :=
  specialKeys.find? fun m => m.mapType == ht && m.key == key

/-- The setters read `value->len` or `value->data` first. -/
def setSpecialKey (ht : HType) (key : Bytes) (value : Option Bytes) : Except Fault Rc :=
  match specialKey ht key with
  | none => .ok .declined
  | some m =>
    if m.settable then
      match value with
      | none => .error .nullRead
      | some _ => .ok .ok
    else .ok .abort

/-! ### ngx_proxy_wasm_maps_set -/

/-- What a call finds: memory for its copies, and whether the context is at
`NGX_PROXY_WASM_STEP_UPSTREAM_SELECT`. -/
structure Env where
  dup : Bool
  pool : Pool
  select : Bool

def mapsSet (b : Build) (env : Env) (ht : HType) (key : Bytes) (value : Option Bytes)
    (mode : Mode) (s : HeaderMap) : Handled :=
  if mode ≠ .remove ∧ env.dup = false then .ok (.error, s)
  else
    match setSpecialKey ht key value with
    | .error fault => .error fault
    | .ok .declined =>
      match setHeader env.pool env.select (handlers b ht) key value mode s with
      -- bad header value, error logged
      | .ok (.declined, s) => .ok (.ok, s)
      | r => r
    | .ok rc => .ok (rc, s)

def mapsSetAll (b : Build) (env : Env) (ht : HType) : List (Bytes × Bytes) → HeaderMap → Handled
  | [], s => .ok (.ok, s)
  | (key, value) :: pairs, s =>
    match mapsSet b env ht key (some value) .set s with
    | .ok (.ok, s) => mapsSetAll b env ht pairs s
    | r => r

/-! ### Host functions -/

inductive Result where
  | ok
  | err
  deriving Repr, DecidableEq

def result : Handled → Except Fault (Result × HeaderMap)
  | .error fault => .error fault
  | .ok (.error, s) => .ok (.err, s)
  | .ok (_, s) => .ok (.ok, s)

def setHeaderMapPairs (b : Build) (env : Env) (ht : HType) (pairs : List (Bytes × Bytes))
    (s : HeaderMap) : Except Fault (Result × HeaderMap) :=
  match clearHeaders env.pool env.select (handlers b ht) s with
  | .error fault => .error fault
  | .ok (.ok, s) => result (mapsSetAll b env ht pairs s)
  | .ok (_, s) => .ok (.err, s)

inductive HeaderOp where
  | add (key value : Bytes)
  | replace (key value : Bytes)
  | remove (key : Bytes)
  | setPairs (pairs : List (Bytes × Bytes))

def apply (b : Build) (env : Env) (ht : HType) (s : HeaderMap) :
    HeaderOp → Except Fault (Result × HeaderMap)
  | .add key value => result (mapsSet b env ht key (some value) .append s)
  | .replace key value => result (mapsSet b env ht key (some value) .set s)
  | .remove key => result (mapsSet b env ht key none .remove s)
  | .setPairs pairs => setHeaderMapPairs b env ht pairs s

structure Call where
  ht : HType
  env : Env
  op : HeaderOp

abbrev World := HType → HeaderMap

def call (b : Build) (w : World) (c : Call) : Except Fault (World × Result) :=
  match apply b c.env c.ht (w c.ht) c.op with
  | .error fault => .error fault
  | .ok (r, s) => .ok (Function.update w c.ht s, r)

/-- The calls of a request's filters, as long as all of them return. -/
def calls (b : Build) : World → List Call → Except Fault World
  | w, [] => .ok w
  | w, c :: cs =>
    match call b w c with
    | .error fault => .error fault
    | .ok (w, _) => calls b w cs

/-! ### Readers -/

/-- `ngx_wasm_get_list_elem` does not look at `hash`. -/
def getListElem (list : HeaderList) (key : Bytes) : Option Bytes :=
  (list.parts.flatten.find? fun elt =>
    key.length == elt.key.length && strncasecmp elt.key key).map Elt.value

/-- `ngx_proxy_wasm_maps_get`, where `special` and `shim` are what the lookups among the
special keys and the shim headers answer. -/
def mapsGet (special shim : Bytes → Option Bytes) (ht : HType) (list : HeaderList)
    (key : Bytes) : Option Bytes :=
  match special key with
  | some value => some value
  | none =>
    match getListElem list key with
    | some value => some value
    | none => if ht = .response then shim key else none

/-- The pairs that `ngx_proxy_wasm_pairs_marshal` writes: `extras` with the special keys
and shim headers, and what its loop comes to in the list. -/
def pairsOf (extras : List Elt) (list : HeaderList) : List (Bytes × Bytes) :=
  walk (fun _ => true) (fun ps elt => (ps ++ [(elt.key, elt.value)], false)) list.parts
    (extras.map fun elt => (elt.key, elt.value))

end NgxWasm.ProxyWasm.HeaderMaps
