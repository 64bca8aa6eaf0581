import NgxWasm.Lib.Run
import NgxWasm.Metrics.Define

/-!
# Ids of metrics (ngx_wa_metrics.c 279-359, ngx_wa_shm_kv.c 121-181)

The id of a metric is the crc32 of its name, and a name whose crc32 is taken is answered with
the metric that is there. So the ids of a run are right as long as no name is defined whose
checksum belongs to another name or to a metric of another type.
-/

namespace NgxWasm.Metrics

open NgxWasm NgxWasm.Lib NgxWasm.Lib.SearchTree
open NgxWasm.Shm.Kv (crc32)

/-- The metric under the id given out has the name and the type asked for. -/
def FindsAsked (rb : MetricOps) (s : MetricsShm) (c : Define) : Prop :=
  (metricsDefineShm rb s c).2.rc = .ok → ∃ id a, (metricsDefineShm rb s c).2.out = some id ∧
    kvGet (metricsDefineShm rb s c).1.store id = some a ∧
    ((metricsDefineShm rb s c).1.store.node a).key = c.name ∧
    some ((metricsDefineShm rb s c).1.store.node a).metric.type = c.type

/-- No metric of this name and of another type is there, or the call fails. -/
def RefusesRetype (rb : MetricOps) (s : MetricsShm) (c : Define) : Prop :=
  ∀ a ∈ s.store.tree.toList, (s.store.node a).key = c.name →
    some (s.store.node a).metric.type ≠ c.type → (metricsDefineShm rb s c).2.rc ≠ .ok

/-- Calls with different names were not given the same id. -/
def IdsDistinct (calls : List (Define × DefineAnswer)) : Prop :=
  ∀ p ∈ calls, ∀ q ∈ calls, ∀ id, p.2.out = some id → q.2.out = some id → p.1.name = q.1.name

/-- The checksum of the name is free, or its own and of a metric of this type. -/
def NameFree (s : MetricsShm) (c : Define) : Prop :=
  ∀ a, c.type.isSome = true → c.name.length ≤ s.store.maxMetricNameLength →
    kvGet s.store (crc32 c.name) = some a →
    (s.store.node a).key = c.name ∧ some (s.store.node a).metric.type = c.type

/-- Every metric is in the tree under the checksum of its name. -/
structure Registry (s : MetricsShm) : Prop where
  ok : StoreOk s.store
  keyed : ∀ a ∈ s.store.tree.toList, (s.store.node a).hash = crc32 (s.store.node a).key

theorem emptyShm_registry (workers len : ℕ) : Registry (emptyShm workers len) where
  ok := ⟨List.Pairwise.nil, List.nodup_nil, fun _ ha => absurd ha List.not_mem_nil⟩
  keyed := fun _ ha => absurd ha List.not_mem_nil

theorem Registry.get_mem {s : MetricsShm} (h : Registry s) {a : ℕ}
    (ha : a ∈ s.store.tree.toList) : kvGet s.store (crc32 (s.store.node a).key) = some a := by
  rw [← h.keyed a ha]
  exact lookup_eq_some (fun b => (s.store.node b).hash) s.store.tree a h.ok.ordered h.ok.hashes ha

/-! ### One call -/

/-- What a call can do: fail, give the id of a metric that is there, or add one. -/
inductive DefineOutcome (rb : MetricOps) (s : MetricsShm) (c : Define) : Prop where
  | failed (rc : (metricsDefineShm rb s c).2.rc ≠ .ok)
      (out : (metricsDefineShm rb s c).2.out = none)
      (store : (metricsDefineShm rb s c).1.store = s.store)
      (free : c.type.isSome = true → c.name.length ≤ s.store.maxMetricNameLength →
        kvGet s.store (crc32 c.name) = none)
  | existing (a : ℕ) (type : c.type.isSome = true)
      (fits : c.name.length ≤ s.store.maxMetricNameLength)
      (get : kvGet s.store (crc32 c.name) = some a)
      (run : metricsDefineShm rb s c = (s, ⟨.ok, some (crc32 c.name)⟩))
  | added (m : Metric) (type : some m.type = c.type)
      (get : kvGet s.store (crc32 c.name) = none)
      (store : (metricsDefineShm rb s c).1.store = kvInsert rb s.store ⟨crc32 c.name, c.name, m⟩)
      (answer : (metricsDefineShm rb s c).2 = ⟨.ok, some (crc32 c.name)⟩)

theorem addMetric_cases (rb : MetricOps) (s : MetricsShm) (name : Bytes) (m : Metric)
    (granted : Bool) :
    ((addMetric rb s name m granted).2 = ⟨.error, none⟩ ∧
        (addMetric rb s name m granted).1.store = s.store) ∨
      ((addMetric rb s name m granted).2 = ⟨.ok, some (crc32 name)⟩ ∧
        (addMetric rb s name m granted).1.store = kvInsert rb s.store ⟨crc32 name, name, m⟩) := by
  cases granted with
  | true => exact Or.inr ⟨rfl, rfl⟩
  | false => exact Or.inl ⟨rfl, rfl⟩

/-- A call that gets as far as the node. -/
theorem outcome_of_addMetric {rb : MetricOps} {s : MetricsShm} {c : Define} (s' : MetricsShm)
    (m : Metric) (granted : Bool) (hrun : metricsDefineShm rb s c = addMetric rb s' c.name m granted)
    (hstore : s'.store = s.store) (htype : some m.type = c.type)
    (hget : kvGet s.store (crc32 c.name) = none) : DefineOutcome rb s c := by
  rcases addMetric_cases rb s' c.name m granted with ⟨hans, hst⟩ | ⟨hans, hst⟩
  · refine .failed ?_ ?_ ?_ fun _ _ => hget
    · rw [hrun, hans]
      simp
    · rw [hrun, hans]
    · rw [hrun, hst, hstore]
  · refine .added m htype hget ?_ ?_
    · rw [hrun, hst, hstore]
    · rw [hrun, hans]

theorem histogramAddLocked_error {workers : ℕ} {bins : Option (List ℕ)} {alloc : ℕ → Bool}
    {slab slab' : Slab} {rc : Rc}
    (h : histogramAddLocked workers bins alloc slab = (slab', .error rc)) : rc ≠ .ok := by
  simp only [histogramAddLocked] at h
  split at h
  · simp only [Prod.mk.injEq, Except.error.injEq] at h
    rw [← h.2]
    decide
  · split at h
    · simp only [Prod.mk.injEq, Except.error.injEq] at h
      rw [← h.2]
      decide
    · exact absurd (congrArg Prod.snd h) (by simp)

theorem define_outcome (rb : MetricOps) (s : MetricsShm) (c : Define) : DefineOutcome rb s c := by
  cases htype : c.type with
  | none =>
    have hrun : metricsDefineShm rb s c = (s, ⟨.abort, none⟩) := by rw [metricsDefineShm, htype]
    exact .failed (by rw [hrun]; simp) (by rw [hrun]) (by rw [hrun])
      fun hsome => absurd (htype ▸ hsome) (by simp)
  | some type =>
    by_cases hname : s.store.maxMetricNameLength < c.name.length
    · have hrun : metricsDefineShm rb s c = (s, ⟨.busy, none⟩) := by
        rw [metricsDefineShm, htype]
        simp only [if_pos hname]
      exact .failed (by rw [hrun]; simp) (by rw [hrun]) (by rw [hrun])
        fun _ hfits => absurd hfits (by omega)
    · cases hget : kvGet s.store (crc32 c.name) with
      | some a =>
        refine .existing a (by rw [htype]; rfl) (by omega) hget ?_
        rw [metricsDefineShm, htype]
        simp only [if_neg hname, hget]
      | none =>
        cases type with
        | counter =>
          refine outcome_of_addMetric s (.counter (List.replicate s.store.workers 0)) (c.alloc 0)
            ?_ rfl (by rw [htype]; rfl) hget
          rw [metricsDefineShm, htype]
          simp only [if_neg hname, hget]
        | gauge =>
          refine outcome_of_addMetric s (.gauge (List.replicate s.store.workers ⟨0, 0⟩)) (c.alloc 0)
            ?_ rfl (by rw [htype]; rfl) hget
          rw [metricsDefineShm, htype]
          simp only [if_neg hname, hget]
        | histogram =>
          cases hadd : histogramAddLocked s.store.workers c.bins c.alloc s.slab with
          | mk slab r =>
            cases r with
            | error rc =>
              have hrun : metricsDefineShm rb s c = ({ s with slab }, ⟨rc, none⟩) := by
                rw [metricsDefineShm, htype]
                simp only [if_neg hname, hget, hadd]
              exact .failed (by rw [hrun]; exact histogramAddLocked_error hadd) (by rw [hrun])
                (by rw [hrun]) fun _ _ => hget
            | ok slots =>
              refine outcome_of_addMetric { s with slab } (.histogram slots)
                (c.alloc s.store.workers) ?_ rfl (by rw [htype]; rfl) hget
              rw [metricsDefineShm, htype]
              simp only [if_neg hname, hget, hadd]

/-! ### Runs -/

theorem define_registry (rb : MetricOps) {s : MetricsShm} (c : Define) (h : Registry s) :
    Registry (metricsDefineShm rb s c).1 := by
  cases define_outcome rb s c with
  | failed _ _ hstore _ => exact ⟨hstore ▸ h.ok, hstore ▸ h.keyed⟩
  | existing a _ _ _ hrun =>
    rw [hrun]
    exact h
  | added m _ hget hstore _ =>
    obtain ⟨hok, -⟩ := kvGet_insert rb h.ok (n := ⟨crc32 c.name, c.name, m⟩) hget
    refine ⟨hstore ▸ hok, ?_⟩
    rw [hstore]
    intro a ha
    have hperm := rb.insert_perm (kvInsert rb s.store ⟨crc32 c.name, c.name, m⟩).node
      s.store.tree s.store.next
    rcases List.mem_cons.mp (hperm.mem_iff.mp ha) with rfl | ha
    · rw [kvInsert_new]
    · rw [kvInsert_old rb s.store _ (h.ok.linked a ha)]
      exact h.keyed a ha

/-- A metric stays under its id, with its name and its type. -/
theorem define_keeps (rb : MetricOps) {s : MetricsShm} (c : Define) (h : Registry s) {k a : ℕ}
    (hget : kvGet s.store k = some a) :
    kvGet (metricsDefineShm rb s c).1.store k = some a ∧
      (metricsDefineShm rb s c).1.store.node a = s.store.node a := by
  cases define_outcome rb s c with
  | failed _ _ hstore _ =>
    rw [hstore]
    exact ⟨hget, rfl⟩
  | existing b _ _ _ hrun =>
    rw [hrun]
    exact ⟨hget, rfl⟩
  | added m _ hnone hstore _ =>
    obtain ⟨-, hfind⟩ := kvGet_insert rb h.ok (n := ⟨crc32 c.name, c.name, m⟩) hnone
    have hk : k ≠ crc32 c.name := by
      intro heq
      rw [heq, hnone] at hget
      exact absurd hget (by simp)
    rw [hstore, hfind k, if_neg hk]
    exact ⟨hget, kvInsert_old rb s.store _ (kvGet_lt h.ok hget)⟩

theorem findsAsked_iff (rb : MetricOps) {s : MetricsShm} (c : Define) (h : Registry s) :
    FindsAsked rb s c ↔ NameFree s c := by
  cases define_outcome rb s c with
  | failed hrc _ _ hfree =>
    refine iff_of_true (fun hok => absurd hok hrc) ?_
    intro a hsome hfits hget
    rw [hfree hsome hfits] at hget
    exact absurd hget (by simp)
  | existing a hsome hfits hget hrun =>
    rw [FindsAsked, hrun]
    constructor
    · intro hfinds b _ _ hb
      obtain ⟨id, x, hid, hx, hkey, htype⟩ := hfinds rfl
      rw [← Option.some.inj hid, hb] at hx
      rw [Option.some.inj hx]
      exact ⟨hkey, htype⟩
    · intro hfree _
      exact ⟨crc32 c.name, a, rfl, hget, hfree a hsome hfits hget⟩
  | added m htype hget hstore hans =>
    obtain ⟨-, hfind⟩ := kvGet_insert rb h.ok (n := ⟨crc32 c.name, c.name, m⟩) hget
    refine iff_of_true ?_ ?_
    · intro _
      refine ⟨crc32 c.name, s.store.next, by rw [hans], ?_, ?_, ?_⟩
      · rw [hstore, hfind, if_pos rfl]
      · rw [hstore, kvInsert_new]
      · rw [hstore, kvInsert_new]
        exact htype
    · intro a _ _ hsome
      rw [hget] at hsome
      exact absurd hsome (by simp)

theorem refusesRetype_of_nameFree (rb : MetricOps) {s : MetricsShm} (c : Define) (h : Registry s)
    (hfree : NameFree s c) : RefusesRetype rb s c := by
  intro a ha hkey htype hok
  have hget := h.get_mem ha
  rw [hkey] at hget
  cases define_outcome rb s c with
  | failed hrc _ _ _ => exact hrc hok
  | existing b hsome hfits _ _ => exact htype (hfree a hsome hfits hget).2
  | added m _ hnone _ _ =>
    rw [hnone] at hget
    exact absurd hget (by simp)

/-- Every id given out so far is that of a metric with the name of its call. -/
def Known (s : MetricsShm) (calls : List (Define × DefineAnswer)) : Prop :=
  ∀ p ∈ calls, ∀ id, p.2.out = some id →
    ∃ a, kvGet s.store id = some a ∧ (s.store.node a).key = p.1.name

theorem Known.idsDistinct {s : MetricsShm} {calls : List (Define × DefineAnswer)}
    (h : Known s calls) : IdsDistinct calls := by
  intro p hp q hq id hpid hqid
  obtain ⟨a, ha, hkey⟩ := h p hp id hpid
  obtain ⟨b, hb, hkey'⟩ := h q hq id hqid
  rw [ha] at hb
  rw [← hkey, ← hkey', Option.some.inj hb]

theorem out_ok (rb : MetricOps) (s : MetricsShm) (c : Define) {id : ℕ}
    (h : (metricsDefineShm rb s c).2.out = some id) : (metricsDefineShm rb s c).2.rc = .ok := by
  cases define_outcome rb s c with
  | failed _ hnone _ _ =>
    rw [hnone] at h
    exact absurd h (by simp)
  | existing _ _ _ _ hrun => rw [hrun]
  | added _ _ _ _ hans => rw [hans]

theorem Known.step (rb : MetricOps) {s : MetricsShm} {calls : List (Define × DefineAnswer)}
    (c : Define) (h : Registry s) (hknown : Known s calls) (hfree : NameFree s c) :
    Known (metricsDefineShm rb s c).1 ((c, (metricsDefineShm rb s c).2) :: calls) := by
  intro p hp id hid
  rcases List.mem_cons.mp hp with rfl | hp
  · obtain ⟨id', a, hout, hget, hkey, -⟩ := (findsAsked_iff rb c h).mpr hfree (out_ok rb s c hid)
    rw [hid] at hout
    rw [Option.some.inj hout]
    exact ⟨a, hget, hkey⟩
  · obtain ⟨a, hget, hkey⟩ := hknown p hp id hid
    obtain ⟨hget', hnode⟩ := define_keeps rb c h hget
    exact ⟨a, hget', by rw [hnode, hkey]⟩

theorem known_run (rb : MetricOps) (cs : List Define) :
    ∀ (s : MetricsShm) (calls : List (Define × DefineAnswer)), Registry s → Known s calls →
      Run.Meets (metricsDefineShm rb) NameFree s cs →
      ∃ s', Known s' (cs.zip (Run.exec (metricsDefineShm rb) s cs).2 ++ calls) := by
  induction cs with
  | nil => intro s calls _ h _; exact ⟨s, h⟩
  | cons c cs ih =>
    intro s calls hs h hmeets
    obtain ⟨s', hs'⟩ := ih _ _ (define_registry rb c hs) (h.step rb c hs hmeets.1) hmeets.2
    refine ⟨s', fun p hp => hs' p ?_⟩
    simp only [Run.exec_cons, List.zip_cons_cons, List.cons_append, List.mem_cons,
      List.mem_append] at hp ⊢
    tauto

/-- The ids of a run are right exactly when no call names a checksum that is taken by another
name or by another type. -/
theorem define_ids_iff (rb : MetricOps) (workers len : ℕ) (calls : List Define) :
    (Run.Meets (metricsDefineShm rb) (FindsAsked rb) (emptyShm workers len) calls ∧
        IdsDistinct (calls.zip (Run.exec (metricsDefineShm rb) (emptyShm workers len) calls).2) ∧
        Run.Meets (metricsDefineShm rb) (RefusesRetype rb) (emptyShm workers len) calls) ↔
      Run.Meets (metricsDefineShm rb) NameFree (emptyShm workers len) calls := by
  have hreg := emptyShm_registry workers len
  have hfinds : Run.Meets (metricsDefineShm rb) (FindsAsked rb) (emptyShm workers len) calls ↔
      Run.Meets (metricsDefineShm rb) NameFree (emptyShm workers len) calls :=
    Run.meets_congr (metricsDefineShm rb) (P := Registry) (fun _ c h => findsAsked_iff rb c h)
      (fun _ c h => define_registry rb c h) calls _ hreg
  constructor
  · intro h
    exact hfinds.mp h.1
  · intro h
    obtain ⟨s', hknown⟩ := known_run rb calls _ [] hreg (fun p hp => by simp at hp) h
    rw [List.append_nil] at hknown
    refine ⟨hfinds.mpr h, hknown.idsDistinct, ?_⟩
    exact Run.meets_mono_inv (metricsDefineShm rb) (P := Registry)
      (fun _ c hs hc => refusesRetype_of_nameFree rb c hs hc)
      (fun _ c hs _ => define_registry rb c hs) calls _ hreg h

/-- A counter is defined again as a gauge: `NGX_OK`, and a counter is found. -/
theorem retype_accepted :
    ¬ ∀ (rb : MetricOps) (workers len : ℕ) (calls : List Define),
      Run.Meets (metricsDefineShm rb) (FindsAsked rb) (emptyShm workers len) calls ∧
        IdsDistinct (calls.zip (Run.exec (metricsDefineShm rb) (emptyShm workers len) calls).2) ∧
        Run.Meets (metricsDefineShm rb) (RefusesRetype rb) (emptyShm workers len) calls := by
  intro h
  obtain ⟨⟨-, hsecond, -⟩, -, -⟩ := h metricList 1 64
    [⟨[104], some .counter, none, fun _ => true⟩, ⟨[104], some .gauge, none, fun _ => true⟩]
  have hreg := define_registry metricList ⟨[104], some .counter, none, fun _ => true⟩
    (emptyShm_registry 1 64)
  have hfree := (findsAsked_iff metricList _ hreg).mp hsecond 0 rfl (by decide)
    (by decide)
  exact absurd hfree.2 (by decide)

end NgxWasm.Metrics
