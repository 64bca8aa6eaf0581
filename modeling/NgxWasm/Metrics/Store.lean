import NgxWasm.Lib.SearchTree
import NgxWasm.Metrics.Histogram
import NgxWasm.Shm.Kv

/-!
# The metrics store (ngx_wa_metrics.c)

`ngx_wa_metrics_define` (279-359), `_increment` (367-421), `_record` (429-481) and `_get`
(489-532), `get_counter`, `get_gauge`, `realloc_histogram` and `realloc_metrics` (35-154)
and `ngx_wa_metrics_shm_init` (239-270). The store is a key/value store without eviction
whose values are changed in place; a metric has a slot for each worker. Every allocation
of the new slab succeeds.
-/

namespace NgxWasm.Metrics

open NgxWasm NgxWasm.Lib.SearchTree
open NgxWasm.Shm.Kv (crc32)

/-! ### Metrics -/

inductive MetricType where
  | counter
  | gauge
  | histogram
  deriving Repr, DecidableEq

structure Gauge where
  value : ℕ
  lastUpdate : ℕ
  deriving Repr, DecidableEq

/-- `ngx_wa_metric_t` with its slots. -/
inductive Metric where
  | counter (slots : List ℕ)
  | gauge (slots : List Gauge)
  | histogram (slots : List Histogram)
  deriving Repr, DecidableEq

def Metric.type : Metric → MetricType
  | .counter _ => .counter
  | .gauge _ => .gauge
  | .histogram _ => .histogram

def Metric.workers : Metric → ℕ
  | .counter slots => slots.length
  | .gauge slots => slots.length
  | .histogram slots => slots.length

/-- `NGX_ABORT` for too many bins. -/
def newMetric (workers : ℕ) (bins : Option (List ℕ)) : MetricType → Option Metric
  | .counter => some (.counter (List.replicate workers 0))
  | .gauge => some (.gauge (List.replicate workers ⟨0, 0⟩))
  | .histogram => (newHistogram bins).map fun h => .histogram (List.replicate workers h)

def getCounter (slots : List ℕ) : ℕ := slots.foldl (fun val c => (val + c) % 2 ^ 64) 0

def latestGauge : List Gauge → ℕ → ℕ → ℕ
  | [], val, _ => val
  | g :: slots, val, l =>
    if l < g.lastUpdate then latestGauge slots g.value g.lastUpdate else latestGauge slots val l

/-- Slot 0 is read first; `none` without it. -/
def getGauge : List Gauge → Option ℕ
  | [] => none
  | g :: slots => some (latestGauge slots g.value g.lastUpdate)

/-! ### The store -/

structure MetricNode where
  hash : ℕ
  key : Bytes
  metric : Metric

structure Store where
  workers : ℕ
  maxMetricNameLength : ℕ
  node : ℕ → MetricNode
  next : ℕ
  tree : Lib.SearchTree.Tree ℕ

abbrev MetricOps := Ops ℕ MetricNode MetricNode.hash

def emptyStore (workers maxMetricNameLength : ℕ) : Store :=
  ⟨workers, maxMetricNameLength, fun _ => ⟨0, [], .counter []⟩, 0, .leaf⟩

/-- `ngx_wa_shm_kv_get_locked` with a key hash. -/
def kvGet (s : Store) (mid : ℕ) : Option ℕ := lookup (fun a => (s.node a).hash) mid s.tree

def kvInsert (rb : MetricOps) (s : Store) (n : MetricNode) : Store :=
  let node := Function.update s.node s.next n
  { s with node, next := s.next + 1, tree := rb.insert node s.tree s.next }

def setMetric (s : Store) (a : ℕ) (m : Metric) : Store :=
  { s with node := Function.update s.node a { s.node a with metric := m } }

/-- The id is given with `NGX_OK`. -/
def metricsDefine (rb : MetricOps) (s : Store) (name : Bytes) (type : MetricType)
    (bins : Option (List ℕ)) : Store × Rc :=
  if s.maxMetricNameLength < name.length then (s, .busy)
  else
    match kvGet s (crc32 name) with
    | some _ => (s, .ok)
    | none =>
      match newMetric s.workers bins type with
      | none => (s, .abort)
      | some m => (kvInsert rb s ⟨crc32 name, name, m⟩, .ok)

def metricsIncrement (s : Store) (mid slot n : ℕ) : Store × Rc :=
  match kvGet s mid with
  | none => (s, .declined)
  | some a =>
    match (s.node a).metric with
    | .counter slots =>
      (setMetric s a (.counter (slots.modify slot fun c => (c + n) % 2 ^ 64)), .ok)
    | _ => (s, .abort)

/-- `now` is `ngx_current_msec`. -/
def metricsRecord (s : Store) (mid slot n now : ℕ) (alloc : Bool) : Store × Rc :=
  match kvGet s mid with
  | none => (s, .declined)
  | some a =>
    match (s.node a).metric with
    | .gauge slots => (setMetric s a (.gauge (slots.set slot ⟨n, now⟩)), .ok)
    | .histogram slots =>
      match slots[slot]?.bind fun h => histogramRecord h n alloc with
      | some h => (setMetric s a (.histogram (slots.set slot h)), .ok)
      | none => (s, .ok)
    | _ => (s, .abort)

inductive Got where
  | declined
  /-- A slot or a bin outside of its object is accessed. -/
  | outOfBounds
  | counter (value : ℕ)
  | gauge (value : ℕ)
  | histogram (out : Histogram)
  deriving Repr, DecidableEq

def getMetric : Metric → Got
  | .counter slots => .counter (getCounter slots)
  | .gauge slots =>
    match getGauge slots with
    | some value => .gauge value
    | none => .outOfBounds
  | .histogram slots =>
    match histogramGet slots histogramBuffer with
    | some out => .histogram out
    | none => .outOfBounds

/-- A histogram is given in a zeroed buffer of 18 bins. -/
def metricsGet (s : Store) (mid : ℕ) : Got :=
  match kvGet s mid with
  | none => .declined
  | some a => getMetric (s.node a).metric

/-! ### A new cycle -/

inductive Failure where
  | error
  | outOfBounds
  deriving Repr, DecidableEq

def reallocHistogram (s : Store) (oldSlots : List Histogram) (mid : ℕ) : Except Failure Store :=
  match kvGet s mid with
  | none => .error .error
  | some a =>
    match (s.node a).metric with
    | .histogram (h :: slots) =>
      match histogramGet oldSlots h with
      | none => .error .outOfBounds
      | some h => .ok (setMetric s a (.histogram (h :: slots)))
    | _ => .error .outOfBounds

def ofRc : Store × Rc → Except Failure Store
  | (s, .ok) => .ok s
  | _ => .error .error

/-- A metric is defined again without bins, then its old value goes to slot 0. -/
def reallocMetric (rb : MetricOps) (now : ℕ) (s : Store) (old : MetricNode) :
    Except Failure Store :=
  match metricsDefine rb s old.key old.metric.type none with
  | (s, .ok) =>
    match old.metric with
    | .counter slots => ofRc (metricsIncrement s (crc32 old.key) 0 (getCounter slots))
    | .gauge slots =>
      match getGauge slots with
      | none => .error .outOfBounds
      | some val => ofRc (metricsRecord s (crc32 old.key) 0 val now false)
    | .histogram slots => reallocHistogram s slots (crc32 old.key)
  | _ => .error .error

/-- The node, then its left and its right subtree. -/
def reallocMetrics (rb : MetricOps) (now : ℕ) (old : ℕ → MetricNode) :
    Lib.SearchTree.Tree ℕ → Store → Except Failure Store
  | .leaf, s => .ok s
  | .node l a r, s =>
    match reallocMetric rb now s (old a) with
    | .error e => .error e
    | .ok s =>
      match reallocMetrics rb now old l s with
      | .error e => .error e
      | .ok s => reallocMetrics rb now old r s

/-- The store of the new cycle; an old one is kept unless `noreuse` is set. -/
def metricsShmInit (rb : MetricOps) (workers maxMetricNameLength now : ℕ) (old : Option Store)
    (noreuse : Bool) : Except Failure Store :=
  match old with
  | none => .ok (emptyStore workers maxMetricNameLength)
  | some old =>
    if noreuse then
      reallocMetrics rb now old.node old.tree (emptyStore workers maxMetricNameLength)
    else .ok { old with workers, maxMetricNameLength }

end NgxWasm.Metrics
