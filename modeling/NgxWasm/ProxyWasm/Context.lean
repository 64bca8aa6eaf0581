import NgxWasm.ProxyWasm.Basic
import Mathlib.Data.List.GetD
import Mathlib.Logic.Function.Basic

/-!
# Creation of a filter chain (ngx_proxy_wasm.c, `ngx_proxy_wasm_ctx`)

Each fallible call made for a filter has its outcome in an `Outcome`. The loop
of `ngx_proxy_wasm_ctx` judges a creation by an out-pointer that keeps its value
from the previous filter, so a creation that fails before its entry is pushed is
only noticed for the first filter.
-/

namespace NgxWasm.ProxyWasm.Context

/-! ### Data -/

structure Filter where
  id : ℕ
  acl : Bool
  deriving Repr, DecidableEq

structure Exec where
  id : ℕ
  rootId : ℕ
  index : ℕ
  filter : Filter
  ictx : ℕ
  hasLog : Bool
  started : Bool
  ecode : Option Err
  deriving Repr, DecidableEq

/-- What the calls made by one creation return; `false` is `NULL` or an error. -/
structure Outcome where
  storeAlloc : Bool
  getInstance : Option ℕ
  rexecAlloc : Bool
  aclAlloc : Bool
  aclInit : Bool
  rexecLogAlloc : Bool
  parentAlloc : Bool
  rootContextCreate : Bool
  pluginStart : Bool
  arrayPush : Bool
  logAlloc : Bool
  contextCreate : Bool
  deriving Repr, DecidableEq

structure Worker where
  nextId : ℕ
  rootCtxs : ℕ → List ℕ
  treeCtxs : ℕ → List ℕ
  filterEcode : ℕ → Option Err
  treeCtxs_le : ∀ ictx, ∀ id ∈ treeCtxs ictx, id ≤ nextId

structure PwCtx where
  init : Bool
  storeInit : Bool
  ready : Bool
  isolation : Isolation
  nfilters : ℕ
  pwexecs : List Exec

/-! ### Context creation -/

def chooseStore (isolation : Isolation) (o : Outcome) : Bool :=
  match isolation with
  | .none => true
  | .stream => true
  | .filter => o.storeAlloc
  | .unset => false

def startRoot (o : Outcome) (filter : Filter) (w : Worker) (ictx : ℕ) : Except Err Worker :=
  if filter.id ∈ w.rootCtxs ictx then .ok w
  else if !o.rexecAlloc then .error .startFailed
  else if filter.acl && !o.aclAlloc then .error .startFailed
  else if filter.acl && !o.aclInit then .error .startFailed
  else if !o.rexecLogAlloc then .error .startFailed
  else if !o.parentAlloc then .error .startFailed
  else if !o.rootContextCreate then .error .startFailed
  else if !o.pluginStart then .error .configureFailed
  else .ok { w with rootCtxs := Function.update w.rootCtxs ictx (filter.id :: w.rootCtxs ictx) }

/-- Everything before the filter context: store, instance, root context. -/
def prepare (isolation : Isolation) (o : Outcome) (filter : Filter) (w : Worker) :
    Except Err (ℕ × Worker) :=
  if !chooseStore isolation o then .error .unknown
  else
    match o.getInstance with
    | none => .error .unknown
    | some ictx =>
      match startRoot o filter w ictx with
      | .error e => .error e
      | .ok w => .ok (ictx, w)

def insertCtx (w : Worker) (ictx id : ℕ) (h : id ≤ w.nextId) : Worker :=
  { w with
    treeCtxs := Function.update w.treeCtxs ictx (id :: w.treeCtxs ictx)
    treeCtxs_le := by
      intro i j hj
      by_cases hi : i = ictx
      · subst hi
        rw [Function.update_self] at hj
        rcases List.mem_cons.mp hj with rfl | hj
        · exact h
        · exact w.treeCtxs_le i j hj
      · rw [Function.update_of_ne hi] at hj
        exact w.treeCtxs_le i j hj }

/-- `ngx_proxy_wasm_create_context` for a new stream context, `id` being the
value of `++next_id`. The result is `*out` or the error; an error is stored in
the entry if there is one, else in the filter. -/
def createContext (isolation : Isolation) (o : Outcome) (filter : Filter) (w : Worker)
    (pwexecs : List Exec) : Worker × List Exec × Except Err ℕ :=
  let id := w.nextId
  match prepare isolation o filter w with
  | .error e =>
    ({ w with filterEcode := Function.update w.filterEcode filter.id (some e) }, pwexecs, .error e)
  | .ok (ictx, w) =>
    if id ∈ w.treeCtxs ictx then (w, pwexecs, .ok id)
    else if !o.arrayPush then
      ({ w with filterEcode := Function.update w.filterEcode filter.id (some .startFailed) },
        pwexecs, .error .startFailed)
    else
      let pwexec : Exec := ⟨id, filter.id, pwexecs.length, filter, ictx, false, false, none⟩
      if !o.logAlloc then
        (w, pwexecs ++ [{ pwexec with ecode := some .startFailed }], .error .startFailed)
      else if !o.contextCreate then
        (w, pwexecs ++ [{ pwexec with hasLog := true, ecode := some .startFailed }],
          .error .startFailed)
      else
        (insertCtx w ictx w.nextId (Nat.le_refl _),
          pwexecs ++ [{ pwexec with hasLog := true, started := true }], .ok id)

/-! ### The loop over the chain -/

def incNextId (w : Worker) : Worker :=
  { w with
    nextId := w.nextId + 1
    treeCtxs_le := fun ictx id h => Nat.le_succ_of_le (w.treeCtxs_le ictx id h) }

/-- The loop over `filter_ids` from position `i`; `out` is the local `pwexec`.
The answer is whether the loop ended without `return NULL`. -/
def ctxLoop (lookupFilter : ℕ → Option Filter) (isolation : Isolation) (outcome : ℕ → Outcome) :
    ℕ → List ℕ → Worker → List Exec → Option ℕ → Worker × List Exec × Bool
  | _, [], w, pwexecs, _ => (w, pwexecs, true)
  | i, id :: ids, w, pwexecs, out =>
    match lookupFilter id with
    | none => (w, pwexecs, false)
    | some filter =>
      let r := createContext isolation (outcome i) filter (incNextId w) pwexecs
      let out := match r.2.2 with
        | .ok pwexec => some pwexec
        | .error _ => out
      match out with
      | none => (r.1, r.2.1, false)
      | some pwexec => ctxLoop lookupFilter isolation outcome (i + 1) ids r.1 r.2.1 (some pwexec)

def ngxProxyWasmCtx (lookupFilter : ℕ → Option Filter) (isolation : Isolation)
    (outcome : ℕ → Outcome) (filterIds : Option (List ℕ)) (w : Worker) (c : PwCtx) :
    Worker × PwCtx × Bool :=
  let c := if c.init then c
    else { c with storeInit := isolation == .stream || c.storeInit, init := true }
  match c.ready, filterIds with
  | false, some ids =>
    let r := ctxLoop lookupFilter isolation outcome 0 ids w [] none
    (r.1, { c with isolation := isolation, nfilters := ids.length, pwexecs := r.2.1,
                   ready := r.2.2 }, r.2.2)
  | _, _ => (w, c, true)

end NgxWasm.ProxyWasm.Context
