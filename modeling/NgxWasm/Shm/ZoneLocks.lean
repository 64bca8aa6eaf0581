import NgxWasm.Lib.Run
import NgxWasm.Lib.Trace
import NgxWasm.Metrics.Define
import NgxWasm.Shm.KvMap
import NgxWasm.Shm.Queue

/-!
# The locks of the shared memory zones (ngx_proxy_wasm_host.c 1290-1853)

The host functions of one worker on its zones, with `ngx_wa_shm_kv_resolve_key`,
`ngx_wa_shm_lookup_index` and `ngx_wa_shm_queue_resolve`. A function that asks its guest for memory
runs `proxy_on_memory_allocate`, which may call host functions itself, so such functions form a
stack. The mutex of a zone holds the pid of a worker, and a worker that finds its own pid there
waits forever.
-/

namespace NgxWasm.Shm.ZoneLocks

open NgxWasm NgxWasm.Lib
open NgxWasm.Shm.Queue NgxWasm.Metrics

/-! ### Zones -/

inductive ShmData where
  | kv (zone : Kv.Zone) (store : Kv.KvStore)
  | queue (q : ShmQueue)
  | metrics (m : MetricsShm)

structure Mapping where
  name : Bytes
  shm : ShmData

/-- The trees of the two stores, the place of the metrics zone and the slot of the worker. -/
structure Env where
  rb : Kv.RbtreeOps
  mrb : MetricOps
  metrics : ℕ
  slot : ℕ

def lookupIndex (shms : List Mapping) (name : Bytes) : Option ℕ :=
  shms.findIdx? fun m => m.name == name

/-- The zone of the namespace in front of the first `/`, and else of `*`. -/
def resolveKey (shms : List Mapping) (key : Bytes) : Option ℕ :=
  let i := key.takeWhile (· ≠ 47)
  let namespaceName := if i.length < key.length then i else []
  let zoneIdx := if namespaceName = [] then none else lookupIndex shms namespaceName
  zoneIdx.or (lookupIndex shms [42])

def queueResolve (shms : List Mapping) (token : ℕ) : Option ℕ :=
  if token < shms.length then some token else none

/-- `ngx_wa_shm_queue_pop_locked` up to the allocation: the length of the message. -/
def popLen (q : ShmQueue) : Option ℕ :=
  if queueOccupancy q < 4 then none else some (u32Val (circularRead q q.popPtr 4))

/-- From the allocation on. -/
def popEnd (q : ShmQueue) (len : ℕ) : ShmQueue × Bytes :=
  let q := { q with popPtr := incPtr q q.popPtr 4 }
  let data := circularRead q q.popPtr len
  let q := { q with popPtr := incPtr q q.popPtr len }
  ({ q with risingOccupancy := false }, data)

/-! ### The worker -/

/-- A host function that waits for memory of its guest. -/
inductive Frame where
  | dequeue (z len : ℕ)
  /-- One that has left its zone, or is on none. -/
  | outside
  deriving Repr, DecidableEq

/-- A host function on a zone begins, and the calls of `ngx_wa_shm_lock` and
`ngx_wa_shm_unlock`. -/
inductive Event where
  | enter (z : ℕ)
  | lock (z : ℕ)
  | unlock (z : ℕ)
  deriving Repr, DecidableEq

structure State where
  shms : List Mapping
  held : List ℕ
  stack : List Frame
  stuck : Bool
  trace : List Event

def initial (shms : List Mapping) : State := ⟨shms, [], [], false, []⟩

inductive HostCall where
  | getSharedData (key : Bytes)
  | setSharedData (key : Bytes) (value : Option Bytes) (cas : ℕ) (alloc : ℕ → Bool)
  | registerSharedQueue (queueName : Bytes)
  | enqueueSharedQueue (token : ℕ) (data : Bytes)
  | dequeueSharedQueue (token : ℕ)
  /-- `ngx_wa_metrics_define` with the prefixed name. -/
  | defineMetric (c : Define)
  | getMetric (mid : ℕ)
  | recordMetric (mid n now : ℕ) (alloc : Bool)
  | incrementMetric (mid n : ℕ)
  /-- A function on no zone that asks for memory. -/
  | other

inductive Input where
  | host (c : HostCall)
  /-- `proxy_on_memory_allocate` of the innermost function ends, with memory of the guest or not. -/
  | allocated (ok : Bool)

def enter (s : State) (z : ℕ) : State := { s with trace := s.trace ++ [.enter z] }

def lock (s : State) (z : ℕ) : State :=
  { s with
    held := if z ∈ s.held then s.held else z :: s.held
    stuck := decide (z ∈ s.held)
    trace := s.trace ++ [.lock z] }

def unlock (s : State) (z : ℕ) : State :=
  { s with held := s.held.erase z, trace := s.trace ++ [.unlock z] }

def setShm (s : State) (z : ℕ) (shm : ShmData) : State :=
  { s with shms := s.shms.modify z fun m => { m with shm := shm } }

/-- `shm` is what the code between the two calls leaves in the zone. -/
def locked (s : State) (z : ℕ) (shm : ShmData) (rc : Rc) : State × Option Rc :=
  let s := lock s z
  if s.stuck then (s, none) else (unlock (setShm s z shm) z, some rc)

/-- `shared_queue_alloc`, called with the zone locked. -/
def sharedQueueAlloc (s : State) (z len : ℕ) : State × Option Rc :=
  let s := lock s z
  if s.stuck then (s, none) else ({ s with stack := .dequeue z len :: s.stack }, none)

/-- `histogram_grow` is called on a histogram below its largest size. -/
def grows (h : Histogram) (n : ℕ) : Bool :=
  decide (h.hType = .log2 ∧ h.nBins ≠ binsMax) &&
    match log2Scan h.bins (binLog2UpperBound n) h.nBins 0 0 with
    | some (.ended i _) => decide (i = h.nBins)
    | _ => false

def recordGrows (s : Store) (mid slot n : ℕ) : Bool :=
  match (kvGet s mid).map fun a => (s.node a).metric with
  | some (.histogram slots) => (slots[slot]?.map fun h => grows h n).getD false
  | _ => false

/-- The zone of a call. -/
def target (env : Env) (shms : List Mapping) : HostCall → Option ℕ
  | .getSharedData key => resolveKey shms key
  | .setSharedData key _ _ _ => resolveKey shms key
  | .registerSharedQueue queueName => lookupIndex shms queueName
  | .enqueueSharedQueue token _ => queueResolve shms token
  | .dequeueSharedQueue token => queueResolve shms token
  | .defineMetric _ => some env.metrics
  | .getMetric _ => some env.metrics
  | .recordMetric _ _ _ _ => some env.metrics
  | .incrementMetric _ _ => some env.metrics
  | .other => none

/-- The rest of a call on zone `z`. The code is `none` as long as the call waits. -/
def onZone (env : Env) (s : State) (z : ℕ) (c : HostCall) : State × Option Rc :=
  match c, (s.shms[z]?).map Mapping.shm with
  | .getSharedData key, some (.kv zone store) =>
    let r := Kv.kvGetLocked zone store key none
    match locked s z (.kv zone r.1) r.2.rc with
    | (s, some .ok) => ({ s with stack := .outside :: s.stack }, none)
    | r => r
  | .setSharedData key value cas alloc, some (.kv zone store) =>
    let r := Kv.kvSetLocked env.rb zone store key value cas alloc
    locked s z (.kv zone r.1) r.2.rc
  | .registerSharedQueue _, some (.queue _) => (s, some .ok)
  | .enqueueSharedQueue _ data, some (.queue q) =>
    let r := pushLocked q data
    locked s z (.queue r.1) r.2
  | .dequeueSharedQueue _, some (.queue q) =>
    match popLen q with
    | none => locked s z (.queue q) .again
    | some 0 => locked s z (.queue (popEnd q 0).1) .ok
    | some len => sharedQueueAlloc s z len
  | .defineMetric c, some (.metrics m) =>
    let r := metricsDefineShm env.mrb m c
    if c.type = none ∨ m.store.maxMetricNameLength < c.name.length then (s, some r.2.rc)
    else locked s z (.metrics r.1) r.2.rc
  | .getMetric mid, some (.metrics m) =>
    (s, some (if metricsGet m.store mid = .declined then .declined else .ok))
  | .recordMetric mid n now alloc, some (.metrics m) =>
    let r := metricsRecord m.store mid env.slot n now alloc
    let shm := ShmData.metrics { m with store := r.1 }
    if recordGrows m.store mid env.slot n then locked s z shm r.2 else (setShm s z shm, some r.2)
  | .incrementMetric mid n, some (.metrics m) =>
    let r := metricsIncrement m.store mid env.slot n
    (setShm s z (.metrics { m with store := r.1 }), some r.2)
  -- a zone of another type
  | _, _ => (s, some .abort)

def hostCall (env : Env) (s : State) (c : HostCall) : State × Option Rc :=
  match target env s.shms c with
  | some z => onZone env (enter s z) z c
  | none =>
    match c with
    | .other => ({ s with stack := .outside :: s.stack }, none)
    | _ => (s, some .declined)

/-- The function goes on with what its guest gave it. -/
def allocated (s : State) (ok : Bool) : State × Option Rc :=
  match s.stack with
  | [] => (s, none)
  | .outside :: rest => ({ s with stack := rest }, some (if ok then .ok else .error))
  | .dequeue z len :: rest =>
    let s := { s with stack := rest }
    match ok, (s.shms[z]?).map Mapping.shm with
    | true, some (.queue q) => (unlock (setShm s z (.queue (popEnd q len).1)) z, some .ok)
    | _, _ => (unlock s z, some .error)

def step (env : Env) (s : State) (i : Input) : State × Option Rc :=
  if s.stuck then (s, none)
  else
    match i with
    | .host c => hostCall env s c
    | .allocated ok => allocated s ok

/-! ### What a trace shows -/

/-- The zones that are locked after a trace. -/
def heldAfter (t : List Event) : List ℕ :=
  t.foldl (fun held e =>
    match e with
    | .enter _ => held
    | .lock z => z :: held
    | .unlock z => held.erase z) []

/-- No zone is locked that is locked already, and no function on a zone begins while another one
has it locked. -/
def Exclusive (t : List Event) : Prop :=
  Trace.Each (fun before e =>
    match e with
    | .enter z => z ∉ heldAfter before
    | .lock z => z ∉ heldAfter before
    | .unlock _ => True) t

/-- No function is called on a zone whose message waits for memory. -/
def Apart (env : Env) (s : State) : Input → Prop
  | .host c => ∀ z ∈ target env s.shms c, ∀ len, Frame.dequeue z len ∉ s.stack
  | .allocated _ => True

def pending : List Frame → List ℕ
  | [] => []
  | .dequeue z _ :: stack => z :: pending stack
  | .outside :: stack => pending stack

theorem mem_pending {stack : List Frame} {z : ℕ} :
    z ∈ pending stack ↔ ∃ len, Frame.dequeue z len ∈ stack := by
  induction stack with
  | nil => simp [pending]
  | cons f stack ih =>
    cases f with
    | dequeue z' len' =>
      simp only [pending, List.mem_cons, Frame.dequeue.injEq, exists_or]
      exact or_congr (by simp) ih
    | outside =>
      simp only [pending, List.mem_cons, reduceCtorEq, false_or]
      exact ih

@[simp] theorem heldAfter_enter (t : List Event) (z : ℕ) :
    heldAfter (t ++ [.enter z]) = heldAfter t := by
  simp only [heldAfter, List.foldl_append, List.foldl_cons, List.foldl_nil]

@[simp] theorem heldAfter_lock (t : List Event) (z : ℕ) :
    heldAfter (t ++ [.lock z]) = z :: heldAfter t := by
  simp only [heldAfter, List.foldl_append, List.foldl_cons, List.foldl_nil]

@[simp] theorem heldAfter_unlock (t : List Event) (z : ℕ) :
    heldAfter (t ++ [.unlock z]) = (heldAfter t).erase z := by
  simp only [heldAfter, List.foldl_append, List.foldl_cons, List.foldl_nil]

/-! ### What a step keeps -/

/-- The locked zones are those whose message waits for memory. -/
structure Good (s : State) : Prop where
  free : s.stuck = false
  held : s.held = pending s.stack
  trace : heldAfter s.trace = s.held
  exclusive : Exclusive s.trace

theorem initial_good (shms : List Mapping) : Good (initial shms) :=
  ⟨rfl, rfl, rfl, Trace.each_nil _⟩

theorem Good.enter {s : State} {z : ℕ} (h : Good s) (hz : z ∉ s.held) :
    Good (ZoneLocks.enter s z) where
  free := h.free
  held := h.held
  trace := (heldAfter_enter s.trace z).trans h.trace
  exclusive := h.exclusive.snoc (by rw [h.trace]; exact hz)

theorem Good.setShm {s : State} (h : Good s) (z : ℕ) (shm : ShmData) :
    Good (ZoneLocks.setShm s z shm) :=
  ⟨h.free, h.held, h.trace, h.exclusive⟩

theorem Good.push {s : State} (h : Good s) : Good { s with stack := .outside :: s.stack } :=
  ⟨h.free, h.held, h.trace, h.exclusive⟩

theorem lock_free {s : State} {z : ℕ} (hz : z ∉ s.held) : (lock s z).stuck = false :=
  decide_eq_false hz

theorem lock_held {s : State} {z : ℕ} (hz : z ∉ s.held) : (lock s z).held = z :: s.held :=
  if_neg hz

theorem lock_exclusive {s : State} {z : ℕ} (h : Good s) (hz : z ∉ s.held) :
    heldAfter (lock s z).trace = z :: s.held ∧ Exclusive (lock s z).trace := by
  refine ⟨?_, h.exclusive.snoc (by rw [h.trace]; exact hz)⟩
  rw [← h.trace]
  exact heldAfter_lock s.trace z

theorem Good.locked {s : State} {z : ℕ} (h : Good s) (hz : z ∉ s.held) (shm : ShmData) (rc : Rc) :
    Good (ZoneLocks.locked s z shm rc).1 := by
  obtain ⟨hafter, hexclusive⟩ := lock_exclusive h hz
  have hback : (z :: s.held).erase z = s.held := List.erase_cons_head ..
  unfold ZoneLocks.locked
  simp only [lock_free hz, Bool.false_eq_true, if_false]
  refine ⟨lock_free hz, ?_, ?_, ?_⟩
  · show (lock s z).held.erase z = pending s.stack
    rw [lock_held hz, hback, h.held]
  · show heldAfter ((lock s z).trace ++ [.unlock z]) = (lock s z).held.erase z
    rw [heldAfter_unlock, hafter, lock_held hz]
  · exact hexclusive.snoc trivial

theorem Good.sharedQueueAlloc {s : State} {z : ℕ} (h : Good s) (hz : z ∉ s.held) (len : ℕ) :
    Good (ZoneLocks.sharedQueueAlloc s z len).1 := by
  obtain ⟨hafter, hexclusive⟩ := lock_exclusive h hz
  unfold ZoneLocks.sharedQueueAlloc
  simp only [lock_free hz, Bool.false_eq_true, if_false]
  refine ⟨rfl, ?_, ?_, hexclusive⟩
  · show (lock s z).held = z :: pending s.stack
    rw [lock_held hz, h.held]
  · rw [hafter]
    exact (lock_held hz).symm

/-- The zone is left as the memory comes, or does not. -/
theorem Good.leave {s : State} {z len : ℕ} {rest : List Frame} (h : Good s)
    (hstack : s.stack = .dequeue z len :: rest) :
    Good (unlock { s with stack := rest } z) := by
  have hheld : s.held = z :: pending rest := by rw [h.held, hstack]; rfl
  have hback : s.held.erase z = pending rest := by rw [hheld]; exact List.erase_cons_head ..
  refine ⟨h.free, hback, ?_, h.exclusive.snoc trivial⟩
  show heldAfter (s.trace ++ [.unlock z]) = s.held.erase z
  rw [heldAfter_unlock, h.trace]

/-- What a call on a zone comes to: it returns at once, writes the zone without the
lock, or goes through `locked`, and may then wait for its guest. -/
theorem onZone_rule {P : State → Prop} (env : Env) (s : State) (z : ℕ) (c : HostCall)
    (hsame : P s) (hset : ∀ shm, P (setShm s z shm))
    (hlocked : ∀ shm rc, P (locked s z shm rc).1)
    (halloc : ∀ len, P (sharedQueueAlloc s z len).1)
    (hpush : ∀ s', P s' → P { s' with stack := .outside :: s'.stack }) :
    P (onZone env s z c).1 := by
  unfold onZone
  split
  · rename_i key zone store _
    have hget := hlocked (.kv zone (Kv.kvGetLocked zone store key none).1)
      (Kv.kvGetLocked zone store key none).2.rc
    simp only
    split
    · rename_i hrun
      rw [hrun] at hget
      exact hpush _ hget
    · exact hget
  · exact hlocked _ _
  · exact hsame
  · exact hlocked _ _
  · split
    · exact hlocked _ _
    · exact hlocked _ _
    · exact halloc _
  · split
    · exact hsame
    · exact hlocked _ _
  · exact hsame
  · split
    · exact hlocked _ _
    · exact hset _
  · exact hset _
  · exact hsame

theorem onZone_good {env : Env} {s : State} {z : ℕ} {c : HostCall} (h : Good s)
    (hz : z ∉ s.held) : Good (onZone env s z c).1 :=
  onZone_rule env s z c h (h.setShm z) (h.locked hz) (h.sharedQueueAlloc hz) fun _ => Good.push

theorem hostCall_good {env : Env} {s : State} {c : HostCall} (h : Good s)
    (hapart : Apart env s (.host c)) : Good (hostCall env s c).1 := by
  unfold hostCall
  split
  · rename_i z htarget
    have hz : z ∉ s.held := by
      rw [h.held, mem_pending]
      intro ⟨len, hmem⟩
      exact hapart z htarget len hmem
    exact onZone_good (h.enter hz) hz
  · split
    · exact h.push
    · exact h

theorem allocated_good {s : State} (ok : Bool) (h : Good s) : Good (allocated s ok).1 := by
  unfold allocated
  split
  · exact h
  · rename_i rest hstack
    have hheld : s.held = pending rest := by rw [h.held, hstack]; rfl
    exact ⟨h.free, hheld, h.trace, h.exclusive⟩
  · rename_i z len rest hstack
    have hleave := h.leave hstack
    simp only
    split
    · exact ⟨hleave.free, hleave.held, hleave.trace, hleave.exclusive⟩
    · exact hleave

theorem step_good {env : Env} {s : State} {i : Input} (h : Good s) (hapart : Apart env s i) :
    Good (step env s i).1 := by
  unfold step
  rw [if_neg (by rw [h.free]; decide)]
  cases i with
  | host c => exact hostCall_good h hapart
  | allocated ok => exact allocated_good ok h

/-! ### A trace only grows -/

theorem locked_grows (s : State) (z : ℕ) (shm : ShmData) (rc : Rc) :
    s.trace <+: (locked s z shm rc).1.trace := by
  unfold locked
  simp only
  split
  · exact List.prefix_append _ _
  · exact (List.prefix_append _ _).trans (List.prefix_append _ _)

theorem sharedQueueAlloc_grows (s : State) (z len : ℕ) :
    s.trace <+: (sharedQueueAlloc s z len).1.trace := by
  unfold sharedQueueAlloc
  simp only
  split <;> exact List.prefix_append _ _

theorem onZone_grows (env : Env) (s : State) (z : ℕ) (c : HostCall) :
    s.trace <+: (onZone env s z c).1.trace :=
  onZone_rule (P := fun s' => s.trace <+: s'.trace) env s z c List.prefix_rfl
    (fun _ => List.prefix_rfl) (locked_grows s z) (sharedQueueAlloc_grows s z) fun _ h => h

theorem hostCall_grows (env : Env) (s : State) (c : HostCall) :
    s.trace <+: (hostCall env s c).1.trace := by
  unfold hostCall
  split
  · rename_i z _
    exact (List.prefix_append s.trace [.enter z]).trans (onZone_grows env (enter s z) z c)
  · split <;> exact List.prefix_rfl

theorem allocated_grows (s : State) (ok : Bool) : s.trace <+: (allocated s ok).1.trace := by
  unfold allocated
  split
  · exact List.prefix_rfl
  · exact List.prefix_rfl
  · simp only
    split <;> exact List.prefix_append _ _

theorem step_grows (env : Env) (s : State) (i : Input) : s.trace <+: (step env s i).1.trace := by
  unfold step
  split
  · exact List.prefix_rfl
  · cases i with
    | host c => exact hostCall_grows env s c
    | allocated ok => exact allocated_grows s ok

theorem exec_grows (env : Env) (inputs : List Input) :
    ∀ s : State, s.trace <+: (Run.exec (step env) s inputs).1.trace := by
  induction inputs with
  | nil => exact fun _ => List.prefix_rfl
  | cons i inputs ih => exact fun s => (step_grows env s i).trans (ih _)

/-- A function is called on a zone that is locked. -/
theorem step_not_apart {env : Env} {s : State} {i : Input} (h : Good s)
    (hnot : ¬ Apart env s i) : ¬ Exclusive (step env s i).1.trace := by
  cases i with
  | allocated ok => exact absurd trivial hnot
  | host c =>
    simp only [Apart, not_forall, not_not] at hnot
    obtain ⟨z, htarget, len, hmem⟩ := hnot
    have hz : z ∈ heldAfter s.trace := by
      rw [h.trace, h.held, mem_pending]
      exact ⟨len, hmem⟩
    have hrun : (step env s (.host c)).1 = (onZone env (enter s z) z c).1 := by
      simp only [step, h.free, Bool.false_eq_true, if_false, hostCall]
      rw [show target env s.shms c = some z from htarget]
    rw [hrun]
    intro hexclusive
    obtain ⟨rest, hrest⟩ := onZone_grows env (enter s z) z c
    rw [← hrest] at hexclusive
    exact hexclusive s.trace (.enter z) rest (List.append_assoc ..) hz

/-! ### Whole runs -/

theorem exec_exclusive_iff (env : Env) (inputs : List Input) :
    ∀ s : State, Good s →
      (Exclusive (Run.exec (step env) s inputs).1.trace ↔ Run.Meets (step env) (Apart env) s inputs) := by
  induction inputs with
  | nil => exact fun s h => iff_of_true h.exclusive trivial
  | cons i inputs ih =>
    intro s h
    by_cases hapart : Apart env s i
    · rw [Run.meets_cons, ← ih _ (step_good h hapart)]
      exact (and_iff_right hapart).symm
    · refine iff_of_false ?_ fun hmeets => hapart hmeets.1
      intro hexclusive
      exact step_not_apart h hapart (Trace.Each.of_initial hexclusive (exec_grows env inputs _))

/-- The mutexes are never asked for twice, and the functions on a zone exclude each other, as long
as no function is called on the zone of a dequeue that waits for memory. -/
theorem zones_exclusive_iff (env : Env) (shms : List Mapping) (inputs : List Input) :
    Exclusive (Run.exec (step env) (initial shms) inputs).1.trace ↔
      Run.Meets (step env) (Apart env) (initial shms) inputs :=
  exec_exclusive_iff env inputs (initial shms) (initial_good shms)

/-- A queue of 16 bytes that holds the message `[7]`. -/
def oneQueue : List Mapping := [⟨[113], .queue (pushLocked (queueInit 16) [7]).1⟩]

/-- The guest that is asked for memory enqueues a message. -/
theorem enqueue_under_lock :
    ¬ ∀ (env : Env) (shms : List Mapping) (inputs : List Input),
      Exclusive (Run.exec (step env) (initial shms) inputs).1.trace := by
  intro h
  have env : Env := ⟨SearchTree.listOps ℕ Kv.Node.hash, SearchTree.listOps ℕ MetricNode.hash, 0, 0⟩
  have hexclusive := h env oneQueue
    [.host (.dequeueSharedQueue 0), .host (.enqueueSharedQueue 0 [8])]
  exact hexclusive [.enter 0, .lock 0, .enter 0] (.lock 0) [] rfl (by decide)

end NgxWasm.Shm.ZoneLocks
