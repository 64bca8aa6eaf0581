import NgxWasm.Lib.Run
import NgxWasm.Lib.Trace
import Mathlib.Data.List.Basic
import Mathlib.Tactic.Common

/-!
# The tick timer of a root context

`ngx_proxy_wasm_hfuncs_set_tick_period` (ngx_proxy_wasm_host.c 270-314),
`ngx_proxy_wasm_filter_tick_handler` (ngx_proxy_wasm_util.c 193-249) and the restart
of a root context in `ngx_proxy_wasm_create_context` (ngx_proxy_wasm.c 1215-1226).
A pending timer fires even after the period was cleared, and the handler re-arms
whenever it finds a period, also one for which the guest just started a timer.
-/

namespace NgxWasm.ProxyWasm.Tick

open NgxWasm.Lib.Run NgxWasm.Lib.Trace

inductive Event where
  /-- `rexec->tick_period = period`. -/
  | set (period : ℕ)
  /-- `on_tick` runs. -/
  | tick
  deriving Repr, DecidableEq

/-- The root context; `timers` counts its pending tick timers, `trapped` says that
it has no instance or a trapped one. -/
structure Root where
  tickPeriod : ℕ
  timers : ℕ
  trapped : Bool
  exiting : Bool
  trace : List Event
  deriving Repr, DecidableEq

def init : Root := { tickPeriod := 0, timers := 0, trapped := false, exiting := false, trace := [] }

/-- One call of the host function; `alloc` says whether the event is allocated. -/
structure Call where
  period : ℕ
  alloc : Bool
  deriving Repr, DecidableEq

/-- The flag says that the guest traps. -/
def setTickPeriod (r : Root) (c : Call) : Root × Bool :=
  if r.exiting then (r, true)
  else if c.period ≠ 0 ∧ r.tickPeriod ≠ 0 then (r, true)
  else
    let r := { r with tickPeriod := c.period, trace := r.trace ++ [.set c.period] }
    if c.period = 0 then (r, false)
    else if c.alloc then ({ r with timers := r.timers + 1 }, false)
    else (r, true)

/-- A guest callback and the calls it makes until it returns or traps. -/
def callback (r : Root) : List Call → Root × Bool
  | [] => (r, false)
  | c :: cs =>
    match setTickPeriod r c with
    | (r, true) => (r, true)
    | (r, false) => callback r cs

/-- What `create_context` does for a root context whose instance is gone. -/
inductive Restart where
  | failed
  /-- The instance has another root context of the filter, which runs instead. -/
  | other
  /-- `on_configure` makes these calls and returns `ok`. -/
  | started (configure : List Call) (ok : Bool)
  deriving Repr, DecidableEq

/-- The flag says that the context can run. -/
def restart (r : Root) : Restart → Root × Bool
  | .failed => (r, false)
  | .other => (r, false)
  | .started configure ok =>
    match callback { r with tickPeriod := 0, trapped := false } configure with
    | (r, true) => ({ r with trapped := true }, false)
    | (r, false) => (r, ok)

/-- The choices of guest and allocator in one expiration. -/
structure Expiry where
  restart : Restart
  tick : List Call
  trap : Bool
  rearm : Bool
  deriving Repr, DecidableEq

def onTick (r : Root) (o : Expiry) : Root :=
  let (r, trapped) := callback { r with trace := r.trace ++ [.tick] } o.tick
  { r with trapped := trapped || o.trap }

def runTick (r : Root) (o : Expiry) : Root :=
  if !r.trapped then onTick r o
  else
    match restart r o.restart with
    | (r, true) => onTick r o
    | (r, false) => r

/-- `onTimer` says whether the filter has `proxy_on_timer_ready`. -/
def tickHandler (onTimer : Bool) (r : Root) (o : Expiry) : Root :=
  let r := { r with timers := r.timers - 1 }
  if r.exiting || !onTimer then r
  else
    let r := runTick r o
    if r.tickPeriod = 0 then r
    else if o.rearm then { r with timers := r.timers + 1 }
    else r

inductive Op where
  /-- The guest makes the call outside of an expiration. -/
  | call (c : Call)
  | expire (o : Expiry)
  /-- The context is restarted outside of an expiration. -/
  | restart (how : Restart)
  /-- The instance traps or is invalidated. -/
  | trap
  | exit
  deriving Repr, DecidableEq

def step (onTimer : Bool) (r : Root) : Op → Root × Unit
  | .call c =>
    if r.trapped then (r, ())
    else
      match setTickPeriod r c with
      | (r, trapped) => ({ r with trapped }, ())
  | .expire o => if r.timers = 0 then (r, ()) else (tickHandler onTimer r o, ())
  | .restart how => if r.trapped then ((restart r how).1, ()) else (r, ())
  | .trap => ({ r with trapped := true }, ())
  | .exit => ({ r with exiting := true }, ())

/-! ### When one timer is enough -/

/-- The last period set. -/
def lastSet : List Event → Option ℕ
  | [] => none
  | .set p :: t => some ((lastSet t).getD p)
  | .tick :: t => lastSet t

/-- No `on_tick` runs while the last period set is 0. -/
def Quiet (t : List Event) : Prop :=
  Each (fun before e => e = .tick → lastSet before ≠ some 0) t

theorem lastSet_set (t : List Event) (p : ℕ) : lastSet (t ++ [.set p]) = some p := by
  induction t with
  | nil => rfl
  | cons e t ih => cases e <;> simp [lastSet, ih]

theorem lastSet_tick (t : List Event) : lastSet (t ++ [.tick]) = lastSet t := by
  induction t with
  | nil => rfl
  | cons e t ih => cases e <;> simp [lastSet, ih]

/-- Every call of a callback meets `C` where it is made. -/
def Allowed (C : Root → Call → Prop) : Root → List Call → Prop
  | _, [] => True
  | r, c :: cs => C r c ∧ ((setTickPeriod r c).2 = false → Allowed C (setTickPeriod r c).1 cs)

/-- The call traps and changes nothing. -/
def Refused (r : Root) (c : Call) : Prop :=
  r.exiting = true ∨ (c.period ≠ 0 ∧ r.tickPeriod ≠ 0)

/-- Outside of an expiration: no timer is pending, or the call is refused. -/
def Free (r : Root) (c : Call) : Prop := r.timers = 0 ∨ Refused r c

/-- In an expiration, which may re-arm: the call clears the period, or is refused. -/
def InTick (r : Root) (c : Call) : Prop := c.period = 0 ∨ Refused r c

/-- A restart inside an expiration sets no period, and `on_tick` sets none. -/
def TickGuard (r : Root) (o : Expiry) : Prop :=
  if r.trapped then
    ∀ configure ok, o.restart = .started configure ok → configure = [] ∧
      Allowed InTick { r with tickPeriod := 0, trapped := false, trace := r.trace ++ [.tick] } o.tick
  else Allowed InTick { r with trace := r.trace ++ [.tick] } o.tick

def Guard (onTimer : Bool) (r : Root) : Op → Prop
  | .call c => r.trapped = false → Free r c
  | .expire o => r.exiting = false → onTimer = true →
      TickGuard { r with timers := r.timers - 1 } o
  | .restart (.started configure _) => r.trapped = true →
      Allowed Free { r with tickPeriod := 0, trapped := false } configure
  | _ => True

/-- At most `n` timers are pending, none after the period was cleared. -/
structure Inv (n : ℕ) (r : Root) : Prop where
  timers : r.timers ≤ n
  cancelled : lastSet r.trace = some 0 → r.timers = 0 ∧ r.tickPeriod = 0
  quiet : Quiet r.trace

/-- Everything one call can do. -/
theorem setTickPeriod_cases (r : Root) (c : Call) :
    (Refused r c ∧ setTickPeriod r c = (r, true)) ∨
    (¬ Refused r c ∧ c.period = 0 ∧ setTickPeriod r c =
      ({ r with tickPeriod := 0, trace := r.trace ++ [.set 0] }, false)) ∨
    (¬ Refused r c ∧ c.period ≠ 0 ∧ ∃ n ≤ 1, (setTickPeriod r c).1 =
      { r with tickPeriod := c.period, trace := r.trace ++ [.set c.period],
               timers := r.timers + n }) := by
  unfold setTickPeriod Refused
  by_cases hx : r.exiting = true
  · simp [hx]
  · by_cases hp : c.period = 0
    · simp [hx, hp]
    · by_cases ht : r.tickPeriod = 0
      · refine .inr (.inr ⟨by simp [hx, ht], hp, ?_⟩)
        cases c.alloc with
        | false => exact ⟨0, by omega, by simp [hx, hp, ht]⟩
        | true => exact ⟨1, by omega, by simp [hx, hp, ht]⟩
      · simp [hx, hp, ht]

theorem inv_clear {n : ℕ} {r : Root} (h : Inv n r) (hzero : r.timers = 0) :
    Inv n { r with tickPeriod := 0, trace := r.trace ++ [.set 0] } :=
  ⟨h.timers, fun _ => ⟨hzero, rfl⟩, h.quiet.snoc nofun⟩

theorem free_call {r : Root} {c : Call} (h : Inv 1 r) (hc : Free r c) :
    Inv 1 (setTickPeriod r c).1 := by
  obtain ⟨_, heq⟩ | ⟨hne, _, heq⟩ | ⟨hne, hp, n, hn, heq⟩ := setTickPeriod_cases r c
  · rw [heq]
    exact h
  · rw [heq]
    exact inv_clear h (hc.resolve_right hne)
  · have hzero := hc.resolve_right hne
    rw [heq]
    refine ⟨?_, ?_, h.quiet.snoc nofun⟩
    · simp only [hzero]
      omega
    · intro hlast
      rw [lastSet_set] at hlast
      exact absurd (Option.some.inj hlast) hp

theorem inTick_call {r : Root} {c : Call} (h : Inv 0 r) (hc : InTick r c) :
    Inv 0 (setTickPeriod r c).1 := by
  obtain ⟨_, heq⟩ | ⟨_, _, heq⟩ | ⟨hne, hp, _⟩ := setTickPeriod_cases r c
  · rw [heq]
    exact h
  · rw [heq]
    exact inv_clear h (Nat.le_zero.mp h.timers)
  · exact absurd (hc.resolve_right hne) hp

/-- What each allowed call keeps, a callback of allowed calls keeps. -/
theorem callback_keeps {C : Root → Call → Prop} {P : Root → Prop}
    (hcall : ∀ r c, P r → C r c → P (setTickPeriod r c).1) (r : Root) (cs : List Call) (h : P r)
    (hcs : Allowed C r cs) : P (callback r cs).1 := by
  induction cs generalizing r with
  | nil => exact h
  | cons c cs ih =>
    have hnext := hcall r c h hcs.1
    have hrest := hcs.2
    rw [callback]
    rcases hset : setTickPeriod r c with ⟨r', trapped⟩
    rw [hset] at hnext hrest
    cases trapped with
    | true => exact hnext
    | false => exact ih r' hnext (hrest rfl)

theorem onTick_inv {r : Root} {o : Expiry} (h : Inv 0 r) (hlast : lastSet r.trace ≠ some 0)
    (ho : Allowed InTick { r with trace := r.trace ++ [.tick] } o.tick) : Inv 0 (onTick r o) := by
  have hstart : Inv 0 { r with trace := r.trace ++ [.tick] } := by
    refine ⟨h.timers, ?_, h.quiet.snoc fun _ => hlast⟩
    intro hzero
    rw [lastSet_tick] at hzero
    exact absurd hzero hlast
  have hcalls := callback_keeps (fun _ _ => inTick_call) _ _ hstart ho
  exact ⟨hcalls.timers, hcalls.cancelled, hcalls.quiet⟩

theorem runTick_inv {r : Root} {o : Expiry} (h : Inv 0 r) (hlast : lastSet r.trace ≠ some 0)
    (ho : TickGuard r o) : Inv 0 (runTick r o) := by
  unfold runTick
  unfold TickGuard at ho
  by_cases ht : r.trapped = true
  · rw [if_pos ht] at ho
    rw [if_neg (by simp [ht])]
    have hclear : Inv 0 { r with tickPeriod := 0, trapped := false } :=
      ⟨h.timers, fun hzero => absurd hzero hlast, h.quiet⟩
    cases hr : o.restart with
    | failed => exact h
    | other => exact h
    | started configure ok =>
      obtain ⟨rfl, hcalls⟩ := ho configure ok hr
      cases ok with
      | false => exact hclear
      | true => exact onTick_inv hclear hlast hcalls
  · rw [if_neg ht] at ho
    rw [if_pos (by simpa using ht)]
    exact onTick_inv h hlast ho

theorem tickHandler_inv {onTimer : Bool} {r : Root} {o : Expiry} (h : Inv 1 r)
    (hpending : r.timers ≠ 0) (ho : Guard onTimer r (.expire o)) :
    Inv 1 (tickHandler onTimer r o) := by
  have hlast : lastSet r.trace ≠ some 0 := by
    intro hzero
    exact hpending (h.cancelled hzero).1
  have hfired : Inv 0 { r with timers := r.timers - 1 } :=
    ⟨Nat.sub_le_of_le_add h.timers, fun hzero => absurd hzero hlast, h.quiet⟩
  have hweak : ∀ {r : Root}, Inv 0 r → Inv 1 r := fun hr =>
    ⟨Nat.le_succ_of_le hr.timers, hr.cancelled, hr.quiet⟩
  unfold tickHandler
  simp only
  split
  · exact hweak hfired
  · next hgo =>
    simp only [Bool.or_eq_true, Bool.not_eq_eq_eq_not, Bool.not_true, not_or,
      Bool.not_eq_true, Bool.not_eq_false] at hgo
    have htick := runTick_inv hfired hlast (ho hgo.1 hgo.2)
    split
    · exact hweak htick
    · next hperiod =>
      split
      · refine ⟨Nat.succ_le_succ htick.timers, ?_, htick.quiet⟩
        intro hzero
        exact absurd (htick.cancelled hzero).2 hperiod
      · exact hweak htick

theorem restart_inv {r : Root} {how : Restart} (h : Inv 1 r) (onTimer : Bool)
    (ht : r.trapped = true) (hg : Guard onTimer r (.restart how)) : Inv 1 (restart r how).1 := by
  cases how with
  | failed => exact h
  | other => exact h
  | started configure ok =>
    have hclear : Inv 1 { r with tickPeriod := 0, trapped := false } :=
      ⟨h.timers, fun hzero => ⟨(h.cancelled hzero).1, rfl⟩, h.quiet⟩
    have hcalls := callback_keeps (fun _ _ => free_call) _ _ hclear (hg ht)
    rw [restart]
    rcases hcb : callback { r with tickPeriod := 0, trapped := false } configure with ⟨r', trapped⟩
    rw [hcb] at hcalls
    cases trapped with
    | true => exact ⟨hcalls.timers, hcalls.cancelled, hcalls.quiet⟩
    | false => exact hcalls

theorem step_inv (onTimer : Bool) (r : Root) (op : Op) (h : Inv 1 r) (hop : Guard onTimer r op) :
    Inv 1 (step onTimer r op).1 := by
  cases op with
  | call c =>
    rw [step]
    split
    · exact h
    · next ht =>
      have hc := free_call h (hop (by simpa using ht))
      exact ⟨hc.timers, hc.cancelled, hc.quiet⟩
  | expire o =>
    rw [step]
    split
    · exact h
    · next hpending => exact tickHandler_inv h hpending hop
  | restart how =>
    rw [step]
    split
    · next ht => exact restart_inv h onTimer ht hop
    · exact h
  | trap => exact ⟨h.timers, h.cancelled, h.quiet⟩
  | exit => exact ⟨h.timers, h.cancelled, h.quiet⟩

/-- In a run whose calls meet `Guard`, at most one timer is pending at any time and
no `on_tick` runs after the period was cleared until one is set. -/
theorem one_timer (onTimer : Bool) (ops : List Op)
    (h : Meets (step onTimer) (Guard onTimer) init ops) :
    (exec (step onTimer) init ops).1.timers ≤ 1 ∧ Quiet (exec (step onTimer) init ops).1.trace := by
  have hinit : Inv 1 init := by
    refine ⟨Nat.zero_le 1, ?_, each_nil _⟩
    intro hzero
    cases hzero
  have hinv := exec_invariant (step onTimer) (Guard onTimer) (Inv 1) (step_inv onTimer) ops init
    hinit h
  exact ⟨hinv.timers, hinv.quiet⟩

/-- `on_configure` sets a period, the second `on_tick` clears it. -/
def cancelledInTick : List Op :=
  [.call ⟨5, true⟩, .expire ⟨.failed, [], false, true⟩,
   .expire ⟨.failed, [⟨0, true⟩], false, true⟩]

theorem one_timer_cancelled :
    (exec (step true) init cancelledInTick).1.timers ≤ 1 ∧
      Quiet (exec (step true) init cancelledInTick).1.trace := by
  apply one_timer true cancelledInTick
  simp [cancelledInTick, Guard, step, setTickPeriod, tickHandler, runTick, onTick, callback, init,
    Free, TickGuard, Allowed, InTick]

/-- Clearing the period leaves the timer pending: `on_tick` still runs, and a period
set before that starts a second timer. -/
theorem two_timers :
    (exec (step true) init [.call ⟨5, true⟩, .call ⟨0, true⟩, .call ⟨7, true⟩]).1.timers = 2 ∧
    (exec (step true) init [.call ⟨5, true⟩, .call ⟨0, true⟩,
      .expire ⟨.failed, [], false, true⟩]).1.trace = [.set 5, .set 0, .tick] := by
  decide

end NgxWasm.ProxyWasm.Tick
