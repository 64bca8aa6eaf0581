import NgxWasm.Metrics.HistogramFold
import NgxWasm.Metrics.Store

/-!
# Metrics across a reload

A new store is filled from the old one by a walk over its tree. Counters and gauges keep
their values; a histogram has to go through a LOG2 histogram of 5 bins.
-/

namespace NgxWasm.Metrics

open NgxWasm NgxWasm.Lib.SearchTree
open NgxWasm.Shm.Kv (crc32)

/-- What a caller reads: the type, and the value, of a histogram its bins in use and its sum. -/
inductive Value where
  | counter (n : ℕ)
  | gauge (n : ℕ)
  | histogram (bins : List Bin) (sum : ℕ)
  deriving Repr, DecidableEq

def Got.value : Got → Option Value
  | .counter n => some (.counter n)
  | .gauge n => some (.gauge n)
  | .histogram out => some (.histogram (usedBins out.bins) out.sum)
  | _ => none

def SameValue (g g' : Got) : Prop := ∃ v, g.value = some v ∧ g'.value = some v

/-- A store as `ngx_wa_metrics_define` and the recordings leave it. -/
structure StoreWf (s : Store) : Prop where
  ordered : Ordered (fun a => (s.node a).hash) s.tree
  hashes : (s.tree.toList.map fun a => (s.node a).hash).Nodup
  keyed : ∀ a ∈ s.tree.toList, (s.node a).hash = crc32 (s.node a).key
  workers_pos : 0 < s.workers
  slots : ∀ a ∈ s.tree.toList, (s.node a).metric.workers = s.workers
  histograms : ∀ a ∈ s.tree.toList, ∀ slots, (s.node a).metric = .histogram slots →
    HistogramSlots slots

/-- What a reload brings over. -/
def Survives : Metric → Prop
  | .histogram slots => HistogramSurvives slots
  | _ => True

/-! ### Stores as maps -/

structure StoreOk (s : Store) : Prop where
  ordered : Ordered (fun a => (s.node a).hash) s.tree
  hashes : (s.tree.toList.map fun a => (s.node a).hash).Nodup
  linked : ∀ a ∈ s.tree.toList, a < s.next

def find (s : Store) (k : ℕ) : Option Metric := (kvGet s k).map fun a => (s.node a).metric

theorem metricsGet_eq (s : Store) (k : ℕ) :
    metricsGet s k = match find s k with | none => .declined | some m => getMetric m := by
  rw [metricsGet, find]
  cases kvGet s k <;> rfl

theorem kvInsert_new (rb : MetricOps) (s : Store) (n : MetricNode) :
    (kvInsert rb s n).node s.next = n := Function.update_self ..

theorem kvInsert_old (rb : MetricOps) (s : Store) (n : MetricNode) {a : ℕ} (ha : a < s.next) :
    (kvInsert rb s n).node a = s.node a := Function.update_of_ne (Nat.ne_of_lt ha) ..

theorem kvGet_lt {s : Store} (hs : StoreOk s) {k a : ℕ} (h : kvGet s k = some a) : a < s.next :=
  hs.linked a (lookup_some _ _ _ _ h).1

theorem kvGet_insert (rb : MetricOps) {s : Store} (hs : StoreOk s) {n : MetricNode}
    (hget : kvGet s n.hash = none) :
    StoreOk (kvInsert rb s n) ∧
      ∀ k, kvGet (kvInsert rb s n) k = if k = n.hash then some s.next else kvGet s k := by
  have hnew : Function.update s.node s.next n s.next = n := Function.update_self ..
  have hcell : ∀ a ∈ s.tree.toList,
      (Function.update s.node s.next n a).hash = (s.node a).hash := fun a ha => by
    rw [Function.update_of_ne (Nat.ne_of_lt (hs.linked a ha))]
  have ho : Ordered (fun a => (Function.update s.node s.next n a).hash) s.tree :=
    ordered_congr (fun a ha => (hcell a ha).symm) hs.ordered
  have hd : (s.tree.toList.map fun a => (Function.update s.node s.next n a).hash).Nodup := by
    rw [List.map_congr_left hcell]
    exact hs.hashes
  have hfresh : ∀ b ∈ s.tree.toList, (Function.update s.node s.next n b).hash ≠
      (Function.update s.node s.next n s.next).hash := by
    intro b hb
    rw [hcell b hb, hnew]
    exact lookup_none _ _ _ hs.ordered hget b hb
  have hlookup := lookup_insert rb ho hd hfresh
  rw [hnew] at hlookup
  have hperm := rb.insert_perm (Function.update s.node s.next n) s.tree s.next
  refine ⟨⟨rb.insert_ordered _ _ _ ho, ?_, ?_⟩, ?_⟩
  · simp only [kvInsert]
    rw [(hperm.map _).nodup_iff, List.map_cons, List.nodup_cons, List.mem_map]
    refine ⟨?_, hd⟩
    rintro ⟨b, hb, heq⟩
    exact hfresh b hb heq
  · intro a ha
    rcases List.mem_cons.mp (hperm.mem_iff.mp ha) with rfl | ha
    · exact Nat.lt_succ_self _
    · exact Nat.lt_succ_of_lt (hs.linked a ha)
  · intro k
    rw [kvGet]
    simp only [kvInsert]
    rw [hlookup, lookup_congr k hcell, kvGet]

theorem find_insert (rb : MetricOps) {s : Store} (hs : StoreOk s) {n : MetricNode}
    (hnone : find s n.hash = none) :
    StoreOk (kvInsert rb s n) ∧
      ∀ k, find (kvInsert rb s n) k = if k = n.hash then some n.metric else find s k := by
  obtain ⟨hok, hget⟩ := kvGet_insert rb hs (Option.map_eq_none_iff.mp hnone)
  refine ⟨hok, fun k => ?_⟩
  rw [find, hget k]
  by_cases hk : k = n.hash
  · rw [if_pos hk, if_pos hk, Option.map_some, kvInsert_new]
  · rw [if_neg hk, if_neg hk, find]
    cases hsome : kvGet s k with
    | none => rfl
    | some b => rw [Option.map_some, Option.map_some, kvInsert_old rb s n (kvGet_lt hs hsome)]

theorem setMetric_hash (s : Store) (a : ℕ) (m : Metric) (b : ℕ) :
    ((setMetric s a m).node b).hash = (s.node b).hash := by
  simp only [setMetric]
  by_cases hb : b = a
  · rw [hb, Function.update_self]
  · rw [Function.update_of_ne hb]

theorem find_set {s : Store} (hs : StoreOk s) {mid a : ℕ} (hget : kvGet s mid = some a)
    (m : Metric) :
    StoreOk (setMetric s a m) ∧
      ∀ k, find (setMetric s a m) k = if k = mid then some m else find s k := by
  have hfun : (fun b => ((setMetric s a m).node b).hash) = fun b => (s.node b).hash :=
    funext (setMetric_hash s a m)
  have hkey := (lookup_some _ _ _ _ hget).2
  refine ⟨⟨?_, ?_, hs.linked⟩, ?_⟩
  · rw [hfun]
    exact hs.ordered
  · rw [hfun]
    exact hs.hashes
  · intro k
    rw [find, find, kvGet, hfun, kvGet]
    have htree : (setMetric s a m).tree = s.tree := rfl
    rw [htree]
    by_cases hk : k = mid
    · rw [if_pos hk, hk, show lookup (fun b => (s.node b).hash) mid s.tree = some a from hget,
        Option.map_some]
      simp only [setMetric, Function.update_self]
    · rw [if_neg hk]
      cases hsome : lookup (fun b => (s.node b).hash) k s.tree with
      | none => rfl
      | some b =>
        have hb : b ≠ a := by
          rintro rfl
          exact hk ((lookup_some _ _ _ _ hsome).2.symm.trans hkey)
        rw [Option.map_some, Option.map_some]
        simp only [setMetric, Function.update_of_ne hb]

/-! ### One metric -/

/-- The metric that replaces an old one; `none` where its bins do not fit. -/
def renewed (workers now : ℕ) : Metric → Option Metric
  | .counter slots => some (.counter ((List.replicate workers 0).modify 0 fun c =>
      (c + getCounter slots) % 2 ^ 64))
  | .gauge slots => (getGauge slots).map fun val =>
      .gauge ((List.replicate workers ⟨0, 0⟩).set 0 ⟨val, now⟩)
  | .histogram slots => (histogramGet slots newLog2).map fun h =>
      .histogram (h :: List.replicate (workers - 1) newLog2)

def emptyMetric (workers : ℕ) : MetricType → Metric
  | .counter => .counter (List.replicate workers 0)
  | .gauge => .gauge (List.replicate workers ⟨0, 0⟩)
  | .histogram => .histogram (List.replicate workers newLog2)

theorem newMetric_none (workers : ℕ) (type : MetricType) :
    newMetric workers none type = some (emptyMetric workers type) := by
  cases type <;> rfl

/-- A store in which the name is defined with this metric, and the others are as before. -/
structure Defined (s : Store) (k : ℕ) (m : Metric) (s' : Store) : Prop where
  ok : StoreOk s'
  workers : s'.workers = s.workers
  names : s'.maxMetricNameLength = s.maxMetricNameLength
  find : ∀ k', find s' k' = if k' = k then some m else find s k'

theorem define_new (rb : MetricOps) {s : Store} (hs : StoreOk s) {name : Bytes} (type : MetricType)
    (hfits : name.length ≤ s.maxMetricNameLength) (hnone : find s (crc32 name) = none) :
    ∃ s' a, metricsDefine rb s name type none = (s', .ok) ∧
      Defined s (crc32 name) (emptyMetric s.workers type) s' ∧ kvGet s' (crc32 name) = some a ∧
      (s'.node a).metric = emptyMetric s.workers type := by
  have hget : kvGet s (crc32 name) = none := Option.map_eq_none_iff.mp hnone
  obtain ⟨hok, hfind⟩ :=
    find_insert rb hs (n := ⟨crc32 name, name, emptyMetric s.workers type⟩) hnone
  have hself := hfind (crc32 name)
  simp only [if_true] at hself
  obtain ⟨a, ha, hm⟩ := Option.map_eq_some_iff.mp hself
  refine ⟨_, a, ?_, ⟨hok, rfl, rfl, hfind⟩, ha, hm⟩
  rw [metricsDefine, if_neg (Nat.not_lt.mpr hfits), hget]
  simp only [newMetric_none]

theorem Defined.set {s s' : Store} {k a : ℕ} {m : Metric} (hd : Defined s k m s')
    (hget : kvGet s' k = some a) (m' : Metric) : Defined s k m' (setMetric s' a m') := by
  obtain ⟨hok, hfind⟩ := find_set hd.ok hget m'
  refine ⟨hok, hd.workers, hd.names, ?_⟩
  intro k'
  rw [hfind k', hd.find k']
  split
  · rfl
  · rfl

/-- The metric that is brought over: its name is not too long and its bins fit. -/
def brought (workers maxMetricNameLength now : ℕ) (old : MetricNode) : Option Metric :=
  if maxMetricNameLength < old.key.length then none else renewed workers now old.metric

/-- The metric is renewed, or its name is too long, or one of its bins has no place. -/
theorem reallocMetric_cases (rb : MetricOps) (now : ℕ) {s : Store} (hs : StoreOk s)
    (hpos : 0 < s.workers) (old : MetricNode) (hnone : find s (crc32 old.key) = none) :
    (brought s.workers s.maxMetricNameLength now old = none ∧
        ∃ e, reallocMetric rb now s old = .error e) ∨
      ∃ m s', brought s.workers s.maxMetricNameLength now old = some m ∧
        reallocMetric rb now s old = .ok s' ∧ Defined s (crc32 old.key) m s' := by
  unfold brought
  by_cases hlong : s.maxMetricNameLength < old.key.length
  · left
    rw [if_pos hlong, reallocMetric, metricsDefine, if_pos hlong]
    exact ⟨rfl, _, rfl⟩
  rw [if_neg hlong]
  obtain ⟨s₁, a, hdef, hd, hget, hnew⟩ :=
    define_new rb hs old.metric.type (Nat.not_lt.mp hlong) hnone
  rw [reallocMetric, hdef]
  cases hm : old.metric with
  | counter slots =>
    rw [hm] at hnew
    right
    refine ⟨_, _, rfl, ?_, hd.set hget _⟩
    simp only [metricsIncrement, hget, hnew, Metric.type, emptyMetric, ofRc]
  | gauge slots =>
    rw [hm] at hnew
    cases hg : getGauge slots with
    | none =>
      left
      simp only [renewed, hg, Option.map_none, true_and]
      exact ⟨_, rfl⟩
    | some val =>
      right
      refine ⟨_, _, by rw [renewed, hg, Option.map_some], ?_, hd.set hget _⟩
      simp only [hg, metricsRecord, hget, hnew, Metric.type, emptyMetric, ofRc]
  | histogram slots =>
    rw [hm] at hnew
    obtain ⟨w, hw⟩ := Nat.exists_eq_succ_of_ne_zero (Nat.ne_of_gt hpos)
    simp only [hw, Metric.type, emptyMetric, List.replicate_succ] at hnew
    cases hfold : histogramGet slots newLog2 with
    | none =>
      left
      simp only [renewed, hfold, Option.map_none, true_and, reallocHistogram, hget, hnew]
      exact ⟨_, rfl⟩
    | some h =>
      right
      refine ⟨_, _, by rw [renewed, hfold, Option.map_some], ?_, hd.set hget _⟩
      simp only [reallocHistogram, hget, hnew, hfold, hw, Nat.succ_sub_one]

/-! ### The walk -/

/-- All metrics of the tree are renewed in the store, or one of them cannot be. -/
theorem reallocMetrics_cases (rb : MetricOps) (now : ℕ) (old : ℕ → MetricNode) (t : Lib.SearchTree.Tree ℕ) :
    ∀ {s : Store}, StoreOk s → 0 < s.workers →
      (t.toList.map fun a => crc32 (old a).key).Nodup →
      (∀ a ∈ t.toList, find s (crc32 (old a).key) = none) →
      ((∃ a ∈ t.toList, brought s.workers s.maxMetricNameLength now (old a) = none) ∧
          ∃ e, reallocMetrics rb now old t s = .error e) ∨
        ∃ s', reallocMetrics rb now old t s = .ok s' ∧ StoreOk s' ∧ s'.workers = s.workers ∧
          s'.maxMetricNameLength = s.maxMetricNameLength ∧
          (∀ a ∈ t.toList, ∃ m, brought s.workers s.maxMetricNameLength now (old a) = some m ∧
            find s' (crc32 (old a).key) = some m) ∧
          ∀ k, (∀ a ∈ t.toList, crc32 (old a).key ≠ k) → find s' k = find s k := by
  induction t with
  | leaf =>
    intro s hs _ _ _
    right
    exact ⟨s, rfl, hs, rfl, rfl, fun a ha => absurd ha List.not_mem_nil, fun _ _ => rfl⟩
  | node l x r ihl ihr =>
    intro s hs hpos hnodup hnone
    have hl : ∀ a ∈ l.toList, a ∈ (Lib.SearchTree.Tree.node l x r).toList := fun a ha =>
      List.mem_append_left _ ha
    have hx : x ∈ (Lib.SearchTree.Tree.node l x r).toList := List.mem_append_right _ (List.mem_cons_self ..)
    have hr : ∀ a ∈ r.toList, a ∈ (Lib.SearchTree.Tree.node l x r).toList := fun a ha =>
      List.mem_append_right _ (List.mem_cons_of_mem _ ha)
    rw [Lib.SearchTree.Tree.toList, List.map_append, List.map_cons] at hnodup
    obtain ⟨hnl, hnxr, hdisj⟩ := List.nodup_append.mp hnodup
    obtain ⟨hnx, hnr⟩ := List.nodup_cons.mp hnxr
    have hlx : ∀ a ∈ l.toList, crc32 (old a).key ≠ crc32 (old x).key := fun a ha =>
      hdisj _ (List.mem_map.mpr ⟨a, ha, rfl⟩) _ (List.mem_cons_self ..)
    have hlr : ∀ a ∈ l.toList, ∀ b ∈ r.toList, crc32 (old a).key ≠ crc32 (old b).key :=
      fun a ha b hb => hdisj _ (List.mem_map.mpr ⟨a, ha, rfl⟩) _
        (List.mem_cons_of_mem _ (List.mem_map.mpr ⟨b, hb, rfl⟩))
    have hrx : ∀ b ∈ r.toList, crc32 (old b).key ≠ crc32 (old x).key := fun b hb heq =>
      hnx (List.mem_map.mpr ⟨b, hb, heq⟩)
    rcases reallocMetric_cases rb now hs hpos (old x) (hnone x hx) with
      ⟨hlost, e, herr⟩ | ⟨m, s₁, hm, hok, hd⟩
    · left
      refine ⟨⟨x, hx, hlost⟩, e, ?_⟩
      rw [reallocMetrics, herr]
    have hpos₁ : 0 < s₁.workers := by
      rw [hd.workers]
      exact hpos
    rcases ihl hd.ok hpos₁ hnl
        (fun a ha => by rw [hd.find, if_neg (hlx a ha)]; exact hnone a (hl a ha)) with
      ⟨⟨a, ha, hlost⟩, e, herr⟩ | ⟨s₂, hok₂, hs₂, hw₂, hn₂, hleft, hframe₂⟩
    · left
      rw [hd.workers, hd.names] at hlost
      refine ⟨⟨a, hl a ha, hlost⟩, e, ?_⟩
      rw [reallocMetrics, hok]
      simp only [herr]
    have hpos₂ : 0 < s₂.workers := by
      rw [hw₂]
      exact hpos₁
    rcases ihr hs₂ hpos₂ hnr
        (fun b hb => by
          rw [hframe₂ _ fun a ha => hlr a ha b hb, hd.find, if_neg (hrx b hb)]
          exact hnone b (hr b hb)) with
      ⟨⟨b, hb, hlost⟩, e, herr⟩ | ⟨s₃, hok₃, hs₃, hw₃, hn₃, hright, hframe₃⟩
    · left
      rw [hw₂, hd.workers, hn₂, hd.names] at hlost
      refine ⟨⟨b, hr b hb, hlost⟩, e, ?_⟩
      rw [reallocMetrics, hok]
      simp only [hok₂, herr]
    right
    refine ⟨s₃, ?_, hs₃, hw₃.trans (hw₂.trans hd.workers), hn₃.trans (hn₂.trans hd.names), ?_, ?_⟩
    · rw [reallocMetrics, hok]
      simp only [hok₂, hok₃]
    · intro a ha
      rcases List.mem_append.mp ha with ha | ha
      · obtain ⟨m', hm', hfind⟩ := hleft a ha
        rw [hd.workers, hd.names] at hm'
        refine ⟨m', hm', ?_⟩
        rw [hframe₃ _ fun b hb heq => hlr a ha b hb heq.symm]
        exact hfind
      · rcases List.mem_cons.mp ha with rfl | ha
        · refine ⟨m, hm, ?_⟩
          rw [hframe₃ _ hrx, hframe₂ _ hlx, hd.find, if_pos rfl]
        · obtain ⟨m', hm', hfind⟩ := hright a ha
          rw [hw₂, hd.workers, hn₂, hd.names] at hm'
          exact ⟨m', hm', hfind⟩
    · intro k hk
      rw [hframe₃ k fun b hb => hk b (hr b hb), hframe₂ k fun a ha => hk a (hl a ha), hd.find,
        if_neg fun heq => hk x hx heq.symm]

/-! ### What is read afterwards -/

theorem getCounter_zeros (n val : ℕ) (hlt : val < 2 ^ 64) :
    (List.replicate n 0).foldl (fun val c => (val + c) % 2 ^ 64) val = val := by
  induction n with
  | zero => rfl
  | succ n ih =>
    rw [List.replicate_succ, List.foldl_cons, Nat.add_zero, Nat.mod_eq_of_lt hlt]
    exact ih

theorem getCounter_lt (slots : List ℕ) : getCounter slots < 2 ^ 64 := by
  have hfold : ∀ (l : List ℕ) (val : ℕ), val < 2 ^ 64 →
      l.foldl (fun val c => (val + c) % 2 ^ 64) val < 2 ^ 64 := by
    intro l
    induction l with
    | nil => intro val h; exact h
    | cons c l ih =>
      intro val _
      exact ih _ (Nat.mod_lt _ (by omega))
  exact hfold slots 0 (by omega)

theorem latestGauge_zeros (n val l : ℕ) :
    latestGauge (List.replicate n ⟨0, 0⟩) val l = val := by
  induction n with
  | zero => rfl
  | succ n ih =>
    rw [List.replicate_succ, latestGauge, if_neg (Nat.not_lt.mpr (Nat.zero_le _))]
    exact ih

/-- A metric is read as before exactly when it survives. -/
theorem renewed_same_iff {m : Metric} {workers : ℕ} (hpos : 0 < workers) (hslots : 0 < m.workers)
    (hwf : ∀ slots, m = .histogram slots → HistogramSlots slots) (now : ℕ) :
    (∃ m', renewed workers now m = some m' ∧ SameValue (getMetric m') (getMetric m)) ↔
      Survives m := by
  obtain ⟨w, rfl⟩ := Nat.exists_eq_succ_of_ne_zero (Nat.ne_of_gt hpos)
  cases m with
  | counter slots =>
    refine iff_of_true ⟨_, rfl, _, rfl, ?_⟩ trivial
    have hlt := getCounter_lt slots
    have hnew : getCounter ((List.replicate (w + 1) 0).modify 0 fun c =>
        (c + getCounter slots) % 2 ^ 64) = getCounter slots := by
      rw [List.replicate_succ, List.modify_zero_cons, getCounter, List.foldl_cons, Nat.zero_add,
        Nat.zero_add, Nat.mod_mod, Nat.mod_eq_of_lt hlt]
      exact getCounter_zeros w _ hlt
    simp only [getMetric, Got.value]
    rw [hnew]
  | gauge slots =>
    cases slots with
    | nil => exact absurd hslots (Nat.lt_irrefl 0)
    | cons g slots =>
      refine iff_of_true ⟨_, rfl, .gauge (latestGauge slots g.value g.lastUpdate), ?_, rfl⟩ trivial
      simp only [List.replicate_succ, List.set_cons_zero, getMetric, getGauge, Got.value,
        latestGauge_zeros]
  | histogram slots =>
    have hne : slots ≠ [] := by
      rintro rfl
      exact absurd hslots (Nat.lt_irrefl 0)
    have hregained := regained_iff (hwf slots rfl) hne w
    rw [Survives, ← hregained]
    constructor
    · rintro ⟨m', hm', v, hafter, hbefore⟩
      obtain ⟨h, hfold, rfl⟩ := Option.map_eq_some_iff.mp hm'
      rw [Nat.succ_sub_one, getMetric] at hafter
      rw [getMetric] at hbefore
      cases hout : histogramGet slots histogramBuffer with
      | none =>
        rw [hout] at hbefore
        cases hbefore
      | some out =>
        cases hout' : histogramGet (h :: List.replicate w newLog2) histogramBuffer with
        | none =>
          rw [hout'] at hafter
          cases hafter
        | some out' =>
          rw [hout] at hbefore
          rw [hout'] at hafter
          have heq := hafter.trans hbefore.symm
          simp only [Got.value, Option.some.injEq, Value.histogram.injEq] at heq
          exact ⟨h, out, out', hfold, hout, hout', heq.1, heq.2⟩
    · rintro ⟨h, out, out', hfold, hbefore, hafter, hbins, hsum⟩
      refine ⟨_, by rw [renewed, hfold, Option.map_some], .histogram (usedBins out.bins) out.sum,
        ?_, ?_⟩
      · rw [Nat.succ_sub_one, getMetric, hafter]
        simp only [Got.value, hbins, hsum]
      · rw [getMetric, hbefore]
        rfl

theorem find_old {s : Store} (hs : StoreWf s) {a : ℕ} (ha : a ∈ s.tree.toList) :
    find s (crc32 (s.node a).key) = some (s.node a).metric := by
  have hlookup := lookup_eq_some (fun a => (s.node a).hash) s.tree a hs.ordered hs.hashes ha
  rw [← hs.keyed a ha, find, kvGet, hlookup]
  rfl

/-- A reload into a new slab writes to no bin outside of an object and leaves each metric
readable as before exactly when the names still fit and the histograms fit LOG2 histograms of
5 bins. -/
theorem reload_preserves_iff (rb : MetricOps) (old : Store) (wf : StoreWf old)
    (workers maxMetricNameLength now : ℕ) (hpos : 0 < workers) :
    (∃ new, metricsShmInit rb workers maxMetricNameLength now (some old) true = .ok new ∧
        ∀ a ∈ old.tree.toList, SameValue (metricsGet new (crc32 (old.node a).key))
          (metricsGet old (crc32 (old.node a).key))) ↔
      ∀ a ∈ old.tree.toList,
        (old.node a).key.length ≤ maxMetricNameLength ∧ Survives (old.node a).metric := by
  have hempty : StoreOk (emptyStore workers maxMetricNameLength) :=
    ⟨List.Pairwise.nil, List.nodup_nil, fun a ha => absurd ha List.not_mem_nil⟩
  have hnodup : (old.tree.toList.map fun a => crc32 (old.node a).key).Nodup := by
    rw [← List.map_congr_left wf.keyed]
    exact wf.hashes
  have hone : ∀ a ∈ old.tree.toList,
      ((∃ m', brought workers maxMetricNameLength now (old.node a) = some m' ∧
        SameValue (getMetric m') (getMetric (old.node a).metric)) ↔
          (old.node a).key.length ≤ maxMetricNameLength ∧ Survives (old.node a).metric) := by
    intro a ha
    have hslots : 0 < (old.node a).metric.workers := by
      rw [wf.slots a ha]
      exact wf.workers_pos
    have hrenewed := renewed_same_iff hpos hslots (wf.histograms a ha) now
    unfold brought
    by_cases hlong : maxMetricNameLength < (old.node a).key.length
    · simp [hlong, Nat.not_le.mpr hlong]
    · rw [if_neg hlong, hrenewed]
      exact (and_iff_right (Nat.not_lt.mp hlong)).symm
  have hold : ∀ a ∈ old.tree.toList, metricsGet old (crc32 (old.node a).key) =
      getMetric (old.node a).metric := by
    intro a ha
    rw [metricsGet_eq, find_old wf ha]
  simp only [metricsShmInit, if_true]
  rcases reallocMetrics_cases rb now old.node old.tree hempty hpos hnodup
      (fun _ _ => rfl) with
    ⟨⟨a, ha, hlost⟩, e, herr⟩ | ⟨new, hok, -, -, -, hall, -⟩
  · rw [herr]
    constructor
    · rintro ⟨new, hnew, -⟩
      cases hnew
    · intro h
      obtain ⟨m', hm', -⟩ := (hone a ha).mpr (h a ha)
      rw [show brought workers maxMetricNameLength now (old.node a) = none from hlost] at hm'
      cases hm'
  · rw [hok]
    constructor
    · rintro ⟨new', hnew, hsame⟩ a ha
      obtain ⟨m, hm, hfind⟩ := hall a ha
      rw [← Except.ok.inj hnew] at hsame
      have hs := hsame a ha
      rw [hold a ha, metricsGet_eq, hfind] at hs
      exact (hone a ha).mp ⟨m, hm, hs⟩
    · intro h
      refine ⟨new, rfl, ?_⟩
      intro a ha
      obtain ⟨m, hm, hfind⟩ := hall a ha
      obtain ⟨m', hm', hs⟩ := (hone a ha).mpr (h a ha)
      rw [hold a ha, metricsGet_eq, hfind]
      have heq : m = m' := Option.some.inj (hm.symm.trans hm')
      rw [heq]
      exact hs

/-! ### Stores of a few metrics -/

def metricList : MetricOps := listOps ℕ MetricNode.hash

theorem StoreWf.insert (rb : MetricOps) {s : Store} {n : MetricNode} (wf : StoreWf s)
    (hlinked : ∀ a ∈ s.tree.toList, a < s.next)
    (hfresh : ∀ a ∈ s.tree.toList, (s.node a).hash ≠ n.hash) (hkeyed : n.hash = crc32 n.key)
    (hslots : n.metric.workers = s.workers)
    (hwf : ∀ slots, n.metric = .histogram slots → HistogramSlots slots) :
    StoreWf (kvInsert rb s n) := by
  have hstore : StoreOk s := ⟨wf.ordered, wf.hashes, hlinked⟩
  have hget : kvGet s n.hash = none := by
    cases h : kvGet s n.hash with
    | none => rfl
    | some a =>
      obtain ⟨ha, hkey⟩ := lookup_some _ _ _ _ h
      exact absurd hkey (hfresh a ha)
  obtain ⟨hok, -⟩ := kvGet_insert rb hstore hget
  have hnodes : ∀ a ∈ (kvInsert rb s n).tree.toList, (kvInsert rb s n).node a = n ∨
      a ∈ s.tree.toList ∧ (kvInsert rb s n).node a = s.node a := by
    intro a ha
    rcases List.mem_cons.mp ((rb.insert_perm _ _ _).mem_iff.mp ha) with rfl | ha
    · exact .inl (kvInsert_new rb s n)
    · exact .inr ⟨ha, kvInsert_old rb s n (hlinked a ha)⟩
  refine ⟨hok.ordered, hok.hashes, ?_, wf.workers_pos, ?_, ?_⟩
  · intro a ha
    rcases hnodes a ha with h | ⟨hold, h⟩
    · rw [h, hkeyed]
    · rw [h, wf.keyed a hold]
  · intro a ha
    rcases hnodes a ha with h | ⟨hold, h⟩
    · rw [h]
      exact hslots
    · rw [h]
      exact wf.slots a hold
  · intro a ha slots heq
    rcases hnodes a ha with h | ⟨hold, h⟩
    · rw [h] at heq
      exact hwf slots heq
    · rw [h] at heq
      exact wf.histograms a hold slots heq

def oneMetric (workers : ℕ) (m : Metric) : Store :=
  kvInsert metricList (emptyStore workers 64) ⟨crc32 [104], [104], m⟩

theorem oneMetric_wf {workers : ℕ} {m : Metric} (hpos : 0 < workers) (hslots : m.workers = workers)
    (hwf : ∀ slots, m = .histogram slots → HistogramSlots slots) :
    StoreWf (oneMetric workers m) := by
  have hempty : ∀ a ∈ (emptyStore workers 64).tree.toList, False := by
    intro a ha
    cases ha
  have wf : StoreWf (emptyStore workers 64) :=
    ⟨List.Pairwise.nil, List.nodup_nil, fun a ha => (hempty a ha).elim, hpos,
      fun a ha => (hempty a ha).elim, fun a ha => (hempty a ha).elim⟩
  exact wf.insert metricList (fun a ha => (hempty a ha).elim) (fun a ha => (hempty a ha).elim) rfl
    hslots hwf

/-- Worker 0 recorded 1, 2 and 4. -/
def fourBins : Histogram :=
  (Lib.Run.exec recordStep newLog2 [⟨1, true⟩, ⟨2, true⟩, ⟨4, true⟩]).1

def counterAndHistogram : Store :=
  kvInsert metricList (oneMetric 1 (.counter [7])) ⟨crc32 [105], [105], .histogram [fourBins]⟩

theorem counterAndHistogram_wf : StoreWf counterAndHistogram := by
  have hcounter : StoreWf (oneMetric 1 (.counter [7])) :=
    oneMetric_wf Nat.one_pos rfl fun _ h => by cases h
  refine hcounter.insert metricList (by decide) (by decide) rfl rfl ?_
  intro slots heq
  cases heq
  exact .log2 _ (by decide)

theorem counter_and_histogram_reloaded :
    ∃ new, metricsShmInit metricList 2 64 0 (some counterAndHistogram) true = .ok new ∧
      ∀ a ∈ counterAndHistogram.tree.toList,
        SameValue (metricsGet new (crc32 (counterAndHistogram.node a).key))
          (metricsGet counterAndHistogram (crc32 (counterAndHistogram.node a).key)) := by
  refine (reload_preserves_iff metricList _ counterAndHistogram_wf 2 64 0 (by decide)).mpr ?_
  have htree : ∀ a ∈ counterAndHistogram.tree.toList, a = 0 ∨ a = 1 := by decide
  have hhistogram : HistogramSurvives [fourBins] := by
    refine ⟨by decide, ?_⟩
    intro h hh hcustom
    rw [List.mem_singleton.mp hh] at hcustom
    exact absurd hcustom (by decide)
  intro a ha
  rcases htree a ha with rfl | rfl
  · exact ⟨by decide, trivial⟩
  · exact ⟨by decide, hhistogram⟩

/-- Worker 0 recorded 1, 2, 4, 8 and 16. -/
def sixBins : Histogram :=
  (Lib.Run.exec recordStep newLog2 [⟨1, true⟩, ⟨2, true⟩, ⟨4, true⟩, ⟨8, true⟩, ⟨16, true⟩]).1

def valueAfter (m : Metric) : Option Value :=
  match metricsShmInit metricList 1 64 0 (some (oneMetric 1 m)) true with
  | .ok new => (metricsGet new (crc32 [104])).value
  | .error _ => none

/-- Six LOG2 bins come back as five, the fold of six CUSTOM bins writes behind the object. -/
theorem histograms_not_reloaded :
    (getMetric (.histogram [sixBins])).value = some (.histogram
        [⟨1, 1⟩, ⟨2, 1⟩, ⟨4, 1⟩, ⟨8, 1⟩, ⟨16, 1⟩, ⟨maxUint32, 0⟩] 31) ∧
      valueAfter (.histogram [sixBins]) = some (.histogram
        [⟨1, 1⟩, ⟨2, 1⟩, ⟨4, 1⟩, ⟨8, 1⟩, ⟨maxUint32, 1⟩] 31) ∧
      (newHistogram (some [1, 2, 3, 4, 5])).map (fun h => histogramGet [h] newLog2) =
        some none := by
  decide

end NgxWasm.Metrics
