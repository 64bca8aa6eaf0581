import NgxWasm.ProxyWasm.ResumeCallback
import Mathlib.Logic.Function.Basic

/-!
# Properties read by the filters of a worker (ngx_proxy_wasm_properties.c)

The requests in progress on one worker share module instances. An instance
remembers in `ictx->pwexec` the context that was last run on it, and the getters
find the request through that pointer, starting from the entry at `exec_index`.
-/

namespace NgxWasm.ProxyWasm.Properties
open NgxWasm.ProxyWasm.Resume NgxWasm.ProxyWasm.ResumeCallback

/-! ### Worker -/

/-- `ictx->pwexec`: a root context, or entry `i` of a request. -/
inductive Owner where
  | root
  | stream (req i : ℕ)
  deriving Repr, DecidableEq

/-- A callback of entry `index` of request `req` that reads properties, with
what `ictx->pwexec` is for each instance meanwhile. -/
structure Probe where
  req : ℕ
  index : ℕ
  step : Step
  execIndex : ℕ
  target : Option ℕ
  pwexec : ℕ → Option Owner

structure World where
  chains : ℕ → Chain
  pwexec : ℕ → Option Owner
  probes : List Probe

def newWorld : World := ⟨fun _ => newChain [], fun _ => none, []⟩

def enter (req : ℕ) (reads : ℕ → Bool) (w : World) (r : Ran) : World :=
  let pwexec := Function.update w.pwexec r.ictx (some (.stream req r.i))
  { w with
    pwexec := pwexec
    probes := if reads r.i then w.probes ++ [⟨req, r.i, r.step, r.execIndex, r.target, pwexec⟩]
      else w.probes }

def enterEvent (req : ℕ) (reads : ℕ → Bool) (w : World) (e : Event) : World :=
  match callback e with
  | none => w
  | some r => enter req reads w r

def firstContext (s : Chain) (pwexec : Exec) : Ran :=
  ⟨s.nfilters, s.step, s.action, pwexec.ictx, s.execIndex,
    ictxAt { s with pwexecs := s.pwexecs ++ [pwexec] } s.execIndex⟩

inductive Input where
  | context (req : ℕ) (pwexec : Exec) (reads : ℕ → Bool)
  | call (req : ℕ) (c : Call) (reads : ℕ → Bool)
  | root (ictx : ℕ)
  | invalidate (ictx : ℕ)

def worldStep (w : World) : Input → World × Unit
  | .context req pwexec reads =>
    let s := w.chains req
    let w := { w with
      chains := Function.update w.chains req { s with pwexecs := s.pwexecs ++ [pwexec] } }
    (enter req reads w (firstContext s pwexec), ())
  | .call req c reads =>
    let s := w.chains req
    let s' := (callStep s c).1
    let w := { w with chains := Function.update w.chains req s' }
    ((s'.trace.drop s.trace.length).foldl (enterEvent req reads) w, ())
  | .root ictx => ({ w with pwexec := Function.update w.pwexec ictx (some .root) }, ())
  | .invalidate ictx => ({ w with pwexec := Function.update w.pwexec ictx none }, ())

/-! ### Getters

`headers` is what `ngx_proxy_wasm_maps_get` finds among the headers of a request;
the outer `none` is a read through a pointer that is not valid. -/

section
variable (headers : ℕ → String → Option String)

/-- `get_map_value` on the request headers. -/
def getMapValue (p : Probe) (name : String) : Option (Option String) :=
  match p.target.bind p.pwexec with
  | some (.stream req _) => some (headers req name)
  | _ => none

def getReferer (p : Probe) : Option (Option String) := getMapValue headers p "referer"

def getRequestId (p : Probe) : Option (Option String) := getMapValue headers p "x-request-id"

def requestHeadersLen : ℕ := 16

def getRequestHeader (p : Probe) (path : List Char) : Option (Option String) :=
  getMapValue headers p (String.ofList (path.drop requestHeadersLen))

end

def getFilterName (names : ℕ → ℕ → String) (p : Probe) : Option String :=
  if p.step = .tick then some (names p.req p.index)
  else p.target.map fun _ => names p.req p.execIndex

end NgxWasm.ProxyWasm.Properties
