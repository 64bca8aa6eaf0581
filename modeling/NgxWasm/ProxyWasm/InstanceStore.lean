import Mathlib.Algebra.Order.Ring.Nat
import Mathlib.Data.List.Basic
import Mathlib.Tactic.Common
import Mathlib.Tactic.Linarith

/-!
# The instance store (ngx_proxy_wasm.c)

`get_instance` (980-1080), `ngx_proxy_wasm_instance_invalidate` (1867-1914),
`ngx_proxy_wasm_store_destroy` and `ngx_proxy_wasm_store_sweep` (1968-2015).
The reuse of free instances is compiled out, so `free` is only filled on the way
to destruction. Contexts living on an instance are not part of the store.
-/

namespace NgxWasm.ProxyWasm.InstanceStore

/-- `ngx_proxy_wasm_instance_t`; `id` stands for the pointer. -/
structure Ictx (M : Type) where
  id : ℕ
  module : M
  trapped : Bool
  deriving Repr, DecidableEq

/-- `ngx_proxy_wasm_store_t`, with the number of instances ever created in it and
those destroyed. -/
structure Store (M : Type) where
  busy : List (Ictx M)
  free : List (Ictx M)
  sweep : List (Ictx M)
  created : ℕ
  destroyed : List ℕ
  deriving Repr, DecidableEq

variable {M : Type}

/-- `ngx_proxy_wasm_store_init`. -/
def init : Store M := { busy := [], free := [], sweep := [], created := 0, destroyed := [] }

structure Scan (M : Type) where
  found : Option (Ictx M)
  busy : List (Ictx M)
  sweep : List (Ictx M)
  deriving Repr, DecidableEq

/-- The loop of `get_instance`: `passed` is what stands before the cursor `q` in
the busy queue, `rest` what stands from `q` on. -/
def scan [DecidableEq M] (module : M) (passed rest sweep : List (Ictx M)) : Scan M :=
  match rest with
  | [] => { found := none, busy := passed, sweep }
  | ictx :: rest =>
    if ictx.trapped then
      -- q = ngx_queue_next(&ictx->q); invalidate; continue, which steps once more
      match rest with
      | [] => scan module [] passed (sweep ++ [ictx])
      | next :: rest => scan module (passed ++ [next]) rest (sweep ++ [ictx])
    else if ictx.module = module then
      { found := some ictx, busy := passed ++ ictx :: rest, sweep }
    else scan module (passed ++ [ictx]) rest sweep
termination_by (passed.length + rest.length) * (passed.length + rest.length + 1) + rest.length
decreasing_by
  all_goals simp only [List.length_append, List.length_cons, List.length_nil]
  all_goals nlinarith

/-- `ok` says whether a new instance can be allocated and created. -/
def getInstance [DecidableEq M] (s : Store M) (module : M) (ok : Bool) :
    Store M × Option (Ictx M) :=
  let r := scan module [] s.busy s.sweep
  let s := { s with busy := r.busy, sweep := r.sweep }
  match r.found with
  | some ictx => (s, some ictx)
  | none =>
    if ok then
      let ictx := { id := s.created, module, trapped := false }
      ({ s with busy := s.busy ++ [ictx], created := s.created + 1 }, some ictx)
    else (s, none)

/-- `instance->trapped = 1`. -/
def trapIn (id : ℕ) (q : List (Ictx M)) : List (Ictx M) :=
  q.map fun ictx => if ictx.id = id then { ictx with trapped := true } else ictx

def trap (s : Store M) (id : ℕ) : Store M :=
  { s with busy := trapIn id s.busy, free := trapIn id s.free, sweep := trapIn id s.sweep }

def storeSweep (s : Store M) : Store M :=
  { s with sweep := [], destroyed := s.destroyed ++ s.sweep.map Ictx.id }

def storeDestroy (s : Store M) : Store M :=
  let s := { s with busy := [], free := s.free ++ s.busy }
  let s := { s with free := [], sweep := s.sweep ++ s.free }
  storeSweep s

inductive Op (M : Type) where
  | get (module : M) (ok : Bool)
  | trap (id : ℕ)
  | sweep
  | destroy
  deriving Repr, DecidableEq

def step [DecidableEq M] (s : Store M) : Op M → Store M × Option (Ictx M)
  | .get module ok => getInstance s module ok
  | .trap id => (trap s id, none)
  | .sweep => (storeSweep s, none)
  | .destroy => (storeDestroy s, none)

end NgxWasm.ProxyWasm.InstanceStore
