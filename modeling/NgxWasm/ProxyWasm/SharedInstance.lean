import NgxWasm.ProxyWasm.InstanceStore
import Mathlib.Logic.Function.Basic
import Mathlib.Tactic.Common

/-!
# Contexts on shared instances (ngx_proxy_wasm.c, isolation `none`)

`destroy_pwexec` (304-354), `ngx_proxy_wasm_ctx_destroy` (357-448),
`ngx_proxy_wasm_create_context` (1083-1388), `ngx_proxy_wasm_instance_invalidate`
(1867-1914) and the end of `ngx_http_proxy_wasm_dispatch_resume_handler`
(ngx_http_proxy_wasm_dispatch.c 869-930). All requests use one store; a context
is named by a number that stands for its pointer. The end of a request cancels no
dispatched call: its handler then finds the context as `destroy_pwexec` left it.
-/

namespace NgxWasm.ProxyWasm.SharedInstance

open InstanceStore

/-! ### State -/

structure Filter (M : Type) where
  id : ℕ
  module : M
  deriving Repr, DecidableEq

/-- `ngx_proxy_wasm_exec_t`; `waiting` counts its entries of `dispatch_ops` that
are HTTP calls, `finished` says that its request has. -/
structure Exec (M : Type) where
  filter : Filter M
  root : Bool
  ictx : Option ℕ
  log : Bool
  started : Bool
  waiting : ℕ
  finished : Bool
  deriving Repr, DecidableEq

structure World (M : Type) where
  store : Store M
  exec : ℕ → Option (Exec M)
  rootCtxs : ℕ → List ℕ
  treeCtxs : ℕ → List ℕ
  fresh : ℕ

/-- What the fallible calls of one context creation return. -/
structure Outcome where
  instanceOk : Bool
  rootAlloc : Bool
  rootStart : Bool
  push : Bool
  logAlloc : Bool
  start : Bool
  deriving Repr, DecidableEq

variable {M : Type}

def newWorld : World M where
  store := init
  exec := fun _ => none
  rootCtxs := fun _ => []
  treeCtxs := fun _ => []
  fresh := 0

/-- The contexts in the two trees of an instance. -/
def World.linked (w : World M) (i : ℕ) : List ℕ := w.treeCtxs i ++ w.rootCtxs i

/-- The instance exists and has not trapped. -/
def running (s : Store M) (i : ℕ) : Bool := s.busy.any fun x => x.id == i && !x.trapped

def World.put (w : World M) (c : ℕ) (e : Exec M) : World M :=
  { w with exec := Function.update w.exec c (some e) }

def World.push (w : World M) (e : Exec M) : World M := { w.put w.fresh e with fresh := w.fresh + 1 }

/-! ### Invalidation -/

def destroyPwexec (e : Exec M) : Exec M := { e with ictx := none, started := false, log := false }

/-- The two loops over the trees of an instance. -/
def World.strip (w : World M) (i : ℕ) : World M :=
  { w with
    exec := fun c => (w.exec c).map fun e =>
      if c ∈ w.treeCtxs i then destroyPwexec e
      else if c ∈ w.rootCtxs i then { e with ictx := none }
      else e
    rootCtxs := Function.update w.rootCtxs i []
    treeCtxs := Function.update w.treeCtxs i [] }

def World.stripAll (w : World M) (xs : List (Ictx M)) : World M :=
  xs.foldl (fun w x => w.strip x.id) w

/-- The instances that a lookup moves to the sweep queue. -/
def invalidated [DecidableEq M] (s : Store M) (module : M) : List (Ictx M) :=
  (scan module [] s.busy []).sweep

/-- `ngx_proxy_wasm_store_sweep`: `ngx_proxy_wasm_instance_destroy` goes over the
trees again. -/
def World.sweepStore (w : World M) : World M :=
  { w.stripAll w.store.sweep with store := storeSweep w.store }

/-! ### Context creation -/

/-- The context a creation is made for has a running instance. -/
def World.runsOn (w : World M) (c? : Option ℕ) : Option ℕ :=
  (c?.bind w.exec).bind fun e => e.ictx.filter (running w.store)

def World.isRoot (w : World M) (c? : Option ℕ) : Bool := (c?.bind w.exec).any Exec.root

def instanceFor [DecidableEq M] (w : World M) (f : Filter M) (c? : Option ℕ) (o : Outcome) :
    World M × Option ℕ :=
  match w.runsOn c? with
  | some i => (w, some i)
  | none =>
    let r := getInstance w.store f.module o.instanceOk
    ({ w.stripAll (invalidated w.store f.module) with store := r.1 }, r.2.map Ictx.id)

/-- `if (!started) { ... }`: the guest's start callbacks, then the insertion. -/
def launch (w : World M) (c i : ℕ) (root ok : Bool) : World M × Option ℕ :=
  match w.exec c with
  | none => (w, none)
  | some e =>
    if e.started then (w, some c)
    else if !ok then (w, none)
    else
      let w := w.put c { e with started := true }
      if root then ({ w with rootCtxs := Function.update w.rootCtxs i (c :: w.rootCtxs i) }, some c)
      else ({ w with treeCtxs := Function.update w.treeCtxs i (c :: w.treeCtxs i) }, some c)

/-- `if (in->ictx != ictx) { ... }` -/
def attach (w : World M) (c i : ℕ) : World M :=
  match w.exec c with
  | none => w
  | some e => if e.ictx = some i then w else w.put c { e with ictx := some i, started := false }

def lookupRoot (w : World M) (f : Filter M) (i : ℕ) : Option ℕ :=
  (w.rootCtxs i).find? fun c => (w.exec c).any fun e => e.filter.id == f.id

def startRoot (w : World M) (f : Filter M) (i : ℕ) (in? : Option ℕ) (o : Outcome) :
    World M × Option ℕ :=
  match lookupRoot w f i with
  | some r => launch w r i true o.rootStart
  | none =>
    match in? with
    | none =>
      if !o.rootAlloc then (w, none)
      else
        launch (w.push { filter := f, root := true, ictx := some i, log := true, started := false,
                         waiting := 0, finished := false }) w.fresh i true o.rootStart
    | some c => launch (attach w c i) c i true o.rootStart

/-- `if (pwexec->log == NULL) { ... }` -/
def giveLog (w : World M) (c : ℕ) (ok : Bool) : World M × Bool :=
  match w.exec c with
  | none => (w, false)
  | some e => if e.log then (w, true) else if ok then (w.put c { e with log := true }, true)
    else (w, false)

def startFilter (w : World M) (f : Filter M) (i : ℕ) (in? : Option ℕ) (o : Outcome) :
    World M × Option ℕ :=
  match in? with
  | none =>
    if !o.push then (w, none)
    else
      let c := w.fresh
      let w := w.push { filter := f, root := false, ictx := some i, log := false,
                        started := false, waiting := 0, finished := false }
      match giveLog w c o.logAlloc with
      | (w, false) => (w, none)
      | (w, true) => launch w c i false o.start
  | some c =>
    if c ∈ w.treeCtxs i then launch w c i false o.start
    else
      match giveLog (attach w c i) c o.logAlloc with
      | (w, false) => (w, none)
      | (w, true) => launch w c i false o.start

/-- Every path of `ngx_proxy_wasm_create_context` after the choice of the instance. -/
def startContexts (w : World M) (f : Filter M) (start : Bool) (c? : Option ℕ) (i : ℕ)
    (o : Outcome) : World M × Option ℕ :=
  let root := start || w.isRoot c?
  match startRoot w f i (if w.isRoot c? then c? else none) o with
  | (w, none) => (w, none)
  | (w, some r) => if root then (w, some r) else startFilter w f i c? o

/-- `start` is the creation with `id` 0 and `in` `NULL` at the start of a filter. -/
def createContext [DecidableEq M] (w : World M) (f : Filter M) (start : Bool) (c? : Option ℕ) (o : Outcome) :
    World M × Option ℕ :=
  let w := if start || w.isRoot c? then w.sweepStore else w
  match instanceFor w f c? o with
  | (w, none) => (w, none)
  | (w, some i) => startContexts w f start c? i o

/-! ### Runs -/

/-- The ways through the end of the completion handler. -/
inductive Path where
  | normal
  /-- The instance has trapped, or the call failed: the error path. -/
  | trapped
  | failed
  /-- `pwexec->ictx` is `NULL`, or points to an instance that is gone. -/
  | noInstance
  | noLog
  deriving Repr, DecidableEq

def World.done (w : World M) (c : ℕ) (e : Exec M) : World M :=
  w.put c { e with waiting := e.waiting - 1 }

def present (s : Store M) (i : ℕ) : Bool := (s.busy ++ s.free ++ s.sweep).any fun x => x.id == i

/-- `sockErr` says that the handler runs for a socket error. -/
def complete [DecidableEq M] (w : World M) (c : ℕ) (sockErr : Bool) (o : Outcome) :
    World M × Option Path :=
  match w.exec c with
  | none => (w, none)
  | some e =>
    if e.waiting = 0 then (w, none)
    else
      match e.ictx with
      | none => (w, some .noInstance)
      | some i =>
        if !present w.store i then (w, some .noInstance)
        else if !e.log then (w, some .noLog)
        else if sockErr then ((createContext (w.done c e) e.filter false (some c) o).1, some .failed)
        else if running w.store i then (w.done c e, some .normal)
        -- dispatch_err runs the step on a new instance
        else ((createContext (w.done c e) e.filter false (some c) o).1, some .trapped)

inductive Op (M : Type) where
  /-- `ngx_proxy_wasm_filter_start`. -/
  | start (f : Filter M) (o : Outcome)
  /-- A request creates its context of a filter. -/
  | create (f : Filter M) (o : Outcome)
  /-- `ngx_proxy_wasm_run_step` on a context. -/
  | run (c : ℕ) (o : Outcome)
  | trap (i : ℕ)
  /-- The guest dispatches a call from a context. -/
  | dispatch (c : ℕ)
  | complete (c : ℕ) (sockErr : Bool) (o : Outcome)
  | sweep
  /-- `ngx_proxy_wasm_ctx_destroy` for a context of a finished request. -/
  | finish (c : ℕ)

def World.runStep [DecidableEq M] (w : World M) (c : ℕ) (o : Outcome) : World M :=
  match w.exec c with
  | none => w
  | some e => if e.finished then w else (createContext w e.filter false (some c) o).1

def dispatch (w : World M) (c : ℕ) : World M :=
  match w.exec c with
  | none => w
  | some e =>
    -- guest code runs in a context that was inserted at its instance, which has not trapped
    if e.log && e.ictx.any (fun i => running w.store i && decide (c ∈ w.linked i)) then
      w.put c { e with waiting := e.waiting + 1 }
    else w

def finish (w : World M) (c : ℕ) : World M :=
  match w.exec c with
  | none => w
  | some e =>
    if e.root then w
    else
      let w := match e.ictx with
        | none => w
        | some i =>
          { w with treeCtxs := Function.update w.treeCtxs i ((w.treeCtxs i).erase c) }.sweepStore
      w.put c { destroyPwexec e with finished := true }

def step [DecidableEq M] (w : World M) : Op M → World M × Option Path
  | .start f o => ((createContext w f true none o).1, none)
  | .create f o => ((createContext w f false none o).1, none)
  | .run c o => (w.runStep c o, none)
  | .trap i => ({ w with store := trap w.store i }, none)
  | .dispatch c => (dispatch w c, none)
  | .complete c sockErr o => complete w c sockErr o
  | .sweep => (w.sweepStore, none)
  | .finish c => (finish w c, none)

end NgxWasm.ProxyWasm.SharedInstance
