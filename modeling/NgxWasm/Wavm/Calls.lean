import NgxWasm.Http.Headers
import NgxWasm.Lib.Ledger
import NgxWasm.Lib.Run

/-!
# Calls into an instance and out of it

`ngx_wavm_func_call`, `ngx_wavm_instance_call_func_vec` and `ngx_wavm_instance_trap_vprintf`
(ngx_wavm.c 1071-1105, 1188-1230, 1326-1343), what `ngx_wavm_log_error` deletes (1500-1526) and
`ngx_wavm_hfunc_trampoline` (ngx_wavm_host.c 206-350), with the wasmtime runtime. A host function
may call its own instance again, so calls nest; the instance has one error, one trap message and
one pointer to the buffer of a trampoline for all of them.
-/

namespace NgxWasm.Wavm

open NgxWasm NgxWasm.Lib
open NgxWasm.Http.Headers (ascii)

/-- What `wasmtime_func_call` writes to its `trap` argument. -/
inductive TrapOut where
  | untouched
  | null
  | raised
  deriving Repr, DecidableEq

/-- What comes back from `wasmtime_func_call`. -/
structure Outcome where
  error : Bool
  trap : TrapOut
  deriving Repr, DecidableEq

/-- `*trap` is always written, and it is NULL where an error is returned. -/
def Outcome.Documented (o : Outcome) : Prop :=
  o.trap = .null ∨ (o.trap = .raised ∧ o.error = false)

instance (o : Outcome) : Decidable o.Documented := by
  unfold Outcome.Documented
  infer_instance

/-- The function came to its end. -/
def Outcome.returned (o : Outcome) : Bool := o == ⟨false, .null⟩

/-- What runs in an instance: a guest function, or the host function of a trampoline. `unwinding`
says that a host function made the guest trap. -/
inductive CallFrame where
  | guest (unwinding : Bool)
  | host (number : ℕ) (name : Bytes)
  deriving Repr, DecidableEq

/-- `ngx_wrt_err_t`, the objects by their numbers. -/
structure WrtErr where
  trap : Option ℕ
  res : Option ℕ
  deriving Repr, DecidableEq

/-- `ngx_wrt_err_init`. -/
def noErr : WrtErr := ⟨none, none⟩

/-- `ngx_wavm_instance_t`. `err` is `wrt_error`; an empty `trapmsg` is a null one, else its bytes
are in the buffer of the trampoline `msgFrame`. -/
structure CallState where
  trapped : Bool
  err : WrtErr
  hostcall : Bool
  trapmsg : Bytes
  msgFrame : ℕ
  trapbuf : ℕ
  frames : List CallFrame
  trampolines : ℕ
  objects : ℕ
  deriving Repr, DecidableEq

inductive CallEv where
  /-- `argsFit` says that the arguments are as many as the function has. -/
  | call (argsFit exported : Bool)
  | leave (o : Outcome)
  | trampoline (name : Bytes)
  /-- `ngx_wavm_instance_trap_printf` with the formatted text. -/
  | printf (text : Bytes)
  | hostReturn (name : Bytes) (rc : ℤ)
  deriving Repr, DecidableEq

/-- The text of a trap, and the trampoline whose buffer it was read from. -/
structure HostTrap where
  text : Bytes
  frame : Option ℕ
  deriving Repr, DecidableEq

structure CallOut where
  rc : Option Rc
  entered : Bool
  acts : List (Ledger.Act ℕ)
  trap : Option HostTrap
  deriving Repr, DecidableEq

def freshInstance : CallState := ⟨false, noErr, false, [], 0, 0, [], 0, 0⟩

/-- `NGX_WAVM_HFUNCS_MAX_TRAP_LEN - 1`. -/
def trapMaxlen : ℕ := 255

def trapPrintf (s : CallState) (text : Bytes) : CallState :=
  if s.trapmsg = [] then { s with trapmsg := text.take trapMaxlen, msgFrame := s.trapbuf } else s

/-- `NGX_WAVM_NYI`. -/
def wavmNyi : ℤ := -13

def hostErr (rc : ℤ) : Option Bytes :=
  if rc = 0 then none
  else if rc = -10 then some (ascii "host trap (internal error)")
  else if rc = -12 then some (ascii "host trap (bad usage)")
  else if rc = -11 then some (ascii "host trap (bad argument)")
  else if rc = wavmNyi then some (ascii "host trap (function not yet implemented)")
  else some (ascii "host trap (invalid rc)")

def hostTrap (s : CallState) (rc : ℤ) : Option HostTrap :=
  match hostErr rc with
  | none => if s.trapmsg = [] then none else some ⟨s.trapmsg, some s.msgFrame⟩
  | some err =>
    if s.trapmsg = [] then some ⟨err, none⟩
    else some ⟨err ++ ascii ": " ++ s.trapmsg, some s.msgFrame⟩

/-- What `ngx_wavm_log_error` deletes. -/
def logError (err : WrtErr) : List (Ledger.Act ℕ) :=
  (err.trap.toList ++ err.res.toList).map .release

def funcCall (s : CallState) (argsFit exported : Bool) : CallState × CallOut :=
  if !argsFit then (s, ⟨some .error, false, [], none⟩)
  -- the error is the one of the call that trapped
  else if s.trapped then (s, ⟨some .abort, false, logError s.err, none⟩)
  else if exported then
    ({ s with err := noErr, frames := .guest false :: s.frames }, ⟨none, true, [], none⟩)
  else ({ s with err := noErr }, ⟨some .error, false, [], none⟩)

/-- `err` after `wasmtime_func_call`; `wrt_error` may be that of a call inside of this one. -/
def leaveErr (s : CallState) (o : Outcome) : WrtErr where
  trap :=
    match o.trap with
    | .untouched => s.err.trap
    | .null => none
    | .raised => some s.objects
  res := if o.error then some (s.objects + 1) else none

/-- The objects that the runtime makes. -/
def leaveMade (s : CallState) (o : Outcome) : List (Ledger.Act ℕ) :=
  (if o.trap = .raised then [.acquire s.objects] else []) ++
    if o.error then [.acquire (s.objects + 1)] else []

def funcLeave (s : CallState) (o : Outcome) : CallState × CallOut :=
  let err := leaveErr s o
  let s' := { s with err := err, objects := s.objects + 2, frames := s.frames.tail }
  if err = noErr then (s', ⟨some .ok, false, leaveMade s o, none⟩)
  else
    ({ s' with trapped := true }, ⟨some .abort, false, leaveMade s o ++ logError err, none⟩)

def trampolineEnter (s : CallState) (name : Bytes) : CallState :=
  { s with
    trapmsg := [], trapbuf := s.trampolines, hostcall := true,
    frames := .host s.trampolines name :: s.frames, trampolines := s.trampolines + 1 }

def trampolineLeave (s : CallState) (name : Bytes) (rc : ℤ) : CallState × CallOut :=
  let s := { s with hostcall := false }
  let s := if rc = wavmNyi then trapPrintf s name else s
  let trap := hostTrap s rc
  let frames :=
    match s.frames.tail with
    | .guest _ :: rest => .guest trap.isSome :: rest
    | rest => rest
  ({ s with frames }, ⟨none, false, [], trap⟩)

def callStep (s : CallState) : CallEv → CallState × CallOut
  | .call argsFit exported => funcCall s argsFit exported
  | .leave o => funcLeave s o
  | .trampoline name => (trampolineEnter s name, ⟨none, false, [], none⟩)
  | .printf text => (trapPrintf s text, ⟨none, false, [], none⟩)
  | .hostReturn name rc => trampolineLeave s name rc

/-- The events nest: C code calls from outside or from a host function, a guest calls host
functions and comes to its end, at once if one of them trapped. -/
def Nests (s : CallState) : CallEv → Prop
  | .call _ _ => ∀ u rest, s.frames ≠ .guest u :: rest
  | .leave o => ∃ u rest, s.frames = .guest u :: rest ∧ (u = true → o.returned = false)
  | .trampoline _ => ∃ rest, s.frames = .guest false :: rest
  | .printf _ => ∃ k name rest, s.frames = .host k name :: rest
  | .hostReturn name _ => ∃ k rest, s.frames = .host k name :: rest

end NgxWasm.Wavm
