import NgxWasm.ProxyWasm.Basic
import Mathlib.Data.List.Basic

/-!
# Execution of a filter chain (ngx_proxy_wasm.c, `ngx_proxy_wasm_resume`)

The chain of one request: `pwctx->exec_index` names the filter at which the next
step starts, `pwctx->action` is the action that the last filter left behind.
What a guest does during one callback is given by a `Guest`. `pausedBy` and
`trace` record who paused and which entries were touched; no function reads them.
-/

namespace NgxWasm.ProxyWasm.Resume

/-! ### Data -/

structure Exec where
  ecode : Option Err
  ecodeLogged : Bool
  ictx : ℕ
  deriving Repr, DecidableEq

/-- A callback of entry `i` on instance `ictx` that left `action`. Meanwhile
`exec_index` was `execIndex` and the entry there had the instance `target`. -/
structure Ran where
  i : ℕ
  step : Step
  action : Action
  ictx : ℕ
  execIndex : ℕ
  target : Option ℕ
  deriving Repr, DecidableEq

inductive Event where
  | access (i : ℕ)
  | ran (r : Ran)
  | created (r : Ran)
  | badReturn (stored : ℕ) (returner : Option ℕ)
  deriving Repr, DecidableEq

structure Chain where
  pwexecs : List Exec
  execIndex : ℕ
  action : Action
  step : Step
  lastCompletedStep : ℕ
  phase : Phase
  respBuffering : Bool
  pausedBy : Option ℕ
  trace : List Event

/-- `pwctx->nfilters`, which `ngx_proxy_wasm_resume` asserts to be `pwexecs.nelts`. -/
def Chain.nfilters (s : Chain) : ℕ := s.pwexecs.length

inductive StepRc where
  | ok
  | abort
  | error
  deriving Repr, DecidableEq

/-- Where the creation of a context fails: before it has an entry, when its log
is set up, or in `proxy_on_context_create`. -/
inductive CreatePoint where
  | root
  | log
  | context
  deriving Repr, DecidableEq

/-- One callback. `trapped` tells whether the entry's instance is gone or
trapped, so that the context is created again on `ictx`. Then the result of the
call, the action that it returned and the one that host calls wrote. -/
structure Guest where
  trapped : Bool
  ictx : ℕ
  createErr : Option (CreatePoint × Err)
  rc : StepRc
  ret : Action
  host : Option Action

/-! ### Actions -/

def setEcode (s : Chain) (i : ℕ) (ecode : Option Err) : Chain :=
  { s with pwexecs := s.pwexecs.modify i fun e => { e with ecode := ecode } }

def setLogged (s : Chain) (i : ℕ) : Chain :=
  { s with pwexecs := s.pwexecs.modify i fun e => { e with ecodeLogged := true } }

def setIctx (s : Chain) (i : ℕ) (ictx : ℕ) : Chain :=
  { s with pwexecs := s.pwexecs.modify i fun e => { e with ictx := ictx } }

/-- The branch for a `PAUSE` that the phase does not allow: the code goes to
`pwexecs[pwctx->exec_index]`. -/
def badReturnAction (s : Chain) : Chain :=
  { setEcode s s.execIndex (some .returnAction) with
    trace := s.trace ++ [.access s.execIndex, .badReturn s.execIndex s.pausedBy] }

def pausable : Phase → Bool
  | .headerFilter => true
  | .bodyFilter => true
  | .rewrite => true
  | .access => true
  | .content => true
  | .background => true
  | _ => false

def action2rc (s : Chain) (i : ℕ) : Chain × Rc :=
  match s.pwexecs[i]? with
  | none => (s, .error)
  | some pwexec =>
    if pwexec.ecode.isSome then
      (if !pwexec.ecodeLogged && s.step ≠ .done then setLogged s i else s, .http 500)
    else if s.step = .done then (s, .ok)
    else
      match s.action with
      | .done => ({ s with action := .cont }, .done)
      | .cont => (s, .ok)
      | .pause =>
        if pausable s.phase then
          ({ s with respBuffering := s.respBuffering || s.phase = .bodyFilter }, .again)
        else (badReturnAction s, .error)
      | _ => (setEcode s i (some .unknown), .error)

/-! ### One callback -/

def returnsAction : Step → Bool
  | .reqHeaders => true
  | .reqBody => true
  | .respHeaders => true
  | .respBody => true
  | .respTrailers => true
  | _ => false

def stepRc (step : Step) (g : Guest) : StepRc :=
  match step with
  | .log => .ok
  | .done => .ok
  | .reqTrailers => .error
  | _ => g.rc

def returnedAction (step : Step) (old : Action) (g : Guest) : Action :=
  if returnsAction step && stepRc step g = .ok then g.ret else old

def rcEcode : StepRc → Option Err
  | .ok => none
  | .abort => some .instanceTrapped
  | .error => some .unknown

/-- The action after a callback: only a `DONE` written by a host call outlives
the returned one. -/
def nextAction (step : Step) (old : Action) (g : Guest) : Action :=
  let cur := g.host.getD old
  let ret := returnedAction step old g
  if cur ≠ ret ∧ cur = .done then .done else ret

def ictxAt (s : Chain) (i : ℕ) : Option ℕ := s.pwexecs[i]?.map Exec.ictx

def createFailed (s : Chain) (i ictx : ℕ) : CreatePoint × Err → Chain
  | (.root, _) => s
  | (.log, e) => setEcode (setIctx s i ictx) i (some e)
  | (.context, e) =>
    let s := setIctx s i ictx
    { setEcode s i (some e) with
      trace := s.trace ++
        [.created ⟨i, s.step, s.action, ictx, s.execIndex, ictxAt s s.execIndex⟩] }

/-- `ngx_proxy_wasm_run_step` on entry `i`, with its return value. -/
def runStep (s : Chain) (i : ℕ) (step : Step) (g : Guest) : Chain × Option Err :=
  match s.pwexecs[i]? with
  | none => (s, some .unknown)
  | some pwexec =>
    match g.trapped, g.createErr with
    | true, some e => (createFailed s i g.ictx e, some e.2)
    | _, _ =>
      let old := s.action
      let action := nextAction step old g
      let ictx := if g.trapped then g.ictx else pwexec.ictx
      let s := setIctx { s with step := step, action := action } i ictx
      let s := { s with
        pausedBy := if action = .pause then some i else s.pausedBy
        trace := s.trace ++ [.ran ⟨i, step, action, ictx, s.execIndex, ictxAt s s.execIndex⟩] }
      if g.host.getD old ≠ returnedAction step old g ∧ g.host.getD old = .done then
        (s, pwexec.ecode)
      else
        let ecode := rcEcode (stepRc step g)
        (setEcode s i ecode, ecode)

/-! ### The chain -/

/-- The head of `ngx_proxy_wasm_resume`; `none` is its early exit. -/
def enterStep (s : Chain) (step : Step) : Option Chain :=
  let s := { s with step := step }
  match step with
  | .tick | .done | .respBody | .dispatchResponse | .upstreamSelect | .nextUpstream
  | .upstreamInfo => some s
  | .respHeaders =>
    some (if s.lastCompletedStep < step.toNat then { s with execIndex := 0 } else s)
  | _ => if step.toNat ≤ s.lastCompletedStep then none else some s

/-- `exec_index` after a callback. A body that is being buffered re-enters its filter. -/
def advance (step : Step) (s : Chain) : Chain :=
  match s.action with
  | .cont => { s with execIndex := s.execIndex + 1 }
  | .done => { s with execIndex := s.execIndex + 1 }
  | .pause => if step ≠ .respBody then { s with execIndex := s.execIndex + 1 } else s
  | _ => s

def nextStep (s : Chain) : Chain :=
  if s.nfilters ≤ s.execIndex then
    { s with lastCompletedStep := s.step.toNat, execIndex := 0 }
  else s

def resumeLoop (step : Step) (guest : ℕ → Guest) : ℕ → ℕ → Chain → Rc → Chain × Rc
  | 0, _, s, rc => (s, rc)
  | k + 1, i, s, _ =>
    let c := action2rc { s with trace := s.trace ++ [.access i] } i
    if c.2 ≠ .ok then c
    else if step = .done && (guest i).trapped then c
    else
      let r := runStep c.1 i step (guest i)
      let s := setEcode r.1 i r.2
      if r.2.isSome then (s, .http 500)
      else
        let c := action2rc (advance step s) i
        if c.2 ≠ .ok ∧ c.2 ≠ .again then c
        else resumeLoop step guest k (i + 1) (nextStep c.1) c.2

/-- `ngx_proxy_wasm_resume`, up to the destruction of the context after `DONE`. -/
def resume (s : Chain) (step : Step) (guest : ℕ → Guest) : Chain × Rc :=
  match enterStep s step with
  | none => ({ s with step := step }, .ok)
  | some s => resumeLoop step guest (s.nfilters - s.execIndex) s.execIndex s .ok

/-! ### Callers -/

def phaseStep : Phase → Option Step
  | .rewrite => some .reqHeaders
  | .access => some .reqHeaders
  | .content => some .reqBody
  | .headerFilter => some .respHeaders
  | .bodyFilter => some .respBody
  | .trailerFilter => some .respTrailers
  | .log => some .log
  | .done => some .done
  | .preaccess => none
  | .background => none

def opHandler (s : Chain) (phase : Phase) (guest : ℕ → Guest) : Chain × Rc :=
  match phaseStep phase with
  | none => ({ s with phase := phase }, .declined)
  | some step => resume { s with phase := phase } step guest

def bodyFilterResume (s : Chain) (guest : ℕ → Guest) : Chain × Rc :=
  if s.respBuffering then (s, .ok)
  else opHandler { s with action := .cont } .bodyFilter guest

def upstreamResume (s : Chain) (step : Step) (guest : ℕ → Guest) : Chain × Rc :=
  let r := resume { s with phase := .background } step guest
  ({ r.1 with step := s.step, lastCompletedStep := s.lastCompletedStep }, r.2)

/-- The end of a dispatch or foreign callback of entry `k`: the pending action,
and the resumption of the step that was in progress. -/
def afterCallback (s : Chain) (k : ℕ) (pending resumes : Bool) (guest : ℕ → Guest) : Chain × Rc :=
  if pending then ({ s with action := .pause, pausedBy := some k }, .again)
  else if resumes then resume { s with action := .cont } s.step guest
  else ({ s with action := .cont }, .error)

def dispatchWait (s : Chain) (k : ℕ) : Chain × Rc :=
  ({ s with action := .pause, pausedBy := some k }, .again)

/-- `ngx_http_proxy_wasm_dispatch_resume_handler` of a call that has been
received, or (`failed`) that has errored. -/
def dispatchResume (s : Chain) (k : ℕ) (failed : Bool) (g : Guest) (pending : Bool)
    (guest : ℕ → Guest) : Chain × Rc :=
  let s := if g.trapped && !failed then setEcode s k (some .instanceTrapped) else s
  let r := runStep { s with phase := .background } k .dispatchResponse g
  let t := if r.2.isSome then r.1 else { r.1 with step := s.step }
  afterCallback t k pending (!(failed || g.trapped || r.2.isSome)) guest

def foreignCallback (s : Chain) (k : ℕ) (g : Guest) (pending : Bool) (guest : ℕ → Guest) :
    Chain × Rc :=
  let r := runStep { s with phase := .background } k .foreignCallback g
  afterCallback { r.1 with step := s.step } k pending true guest

inductive Call where
  | handler (phase : Phase) (guest : ℕ → Guest)
  | bodyFilter (guest : ℕ → Guest)
  | buffered
  | upstream (step : Step) (guest : ℕ → Guest)
  | dispatching (k : ℕ)
  | dispatched (k : ℕ) (failed : Bool) (g : Guest) (pending : Bool) (guest : ℕ → Guest)
  | foreign (k : ℕ) (g : Guest) (pending : Bool) (guest : ℕ → Guest)

def callStep (s : Chain) : Call → Chain × Rc
  | .handler phase guest => opHandler s phase guest
  | .bodyFilter guest => bodyFilterResume s guest
  | .buffered => ({ s with respBuffering := false }, .ok)
  | .upstream step guest => upstreamResume s step guest
  | .dispatching k => dispatchWait s k
  | .dispatched k failed g pending guest => dispatchResume s k failed g pending guest
  | .foreign k g pending guest => foreignCallback s k g pending guest

def returns (a : Action) : Guest := ⟨false, 0, none, .ok, a, none⟩

def created (ictx : ℕ) : Exec := ⟨none, false, ictx⟩

def newChain (pwexecs : List Exec) : Chain :=
  ⟨pwexecs, 0, .cont, .reqHeaders, 0, .rewrite, false, none, []⟩

end NgxWasm.ProxyWasm.Resume
