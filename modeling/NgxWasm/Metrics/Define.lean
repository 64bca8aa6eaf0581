import NgxWasm.Metrics.Reload

/-!
# Definition and memory (ngx_wa_metrics.c 279-359, ngx_wa_histogram.c 182-237)

`ngx_wa_metrics_define` with the allocations it makes: one block for each worker of a
histogram, then one for the node in `ngx_wa_shm_kv_set_locked`. A failed slot allocation gives
the earlier blocks back; a failed node allocation does not.
-/

namespace NgxWasm.Metrics

open NgxWasm NgxWasm.Lib.SearchTree
open NgxWasm.Shm.Kv (crc32)

/-! ### The slab -/

/-- Blocks are numbered as they are allocated; `frees` lists what was freed, in order. -/
structure Slab where
  next : ℕ
  live : List ℕ
  frees : List ℕ
  deriving Repr, DecidableEq

def slabCalloc (slab : Slab) : Slab × ℕ :=
  ({ slab with next := slab.next + 1, live := slab.next :: slab.live }, slab.next)

def slabFree (slab : Slab) (b : ℕ) : Slab :=
  { slab with live := slab.live.erase b, frees := slab.frees ++ [b] }

/-- The metrics zone; the histograms are kept in `store` and their blocks are counted in `slab`. -/
structure MetricsShm where
  store : Store
  nelts : ℕ
  slab : Slab

def emptyShm (workers maxMetricNameLength : ℕ) : MetricsShm :=
  ⟨emptyStore workers maxMetricNameLength, 0, ⟨0, [], []⟩⟩

/-! ### Definition -/

/-- The loop over the workers from `i` on, `blocks` being the slots already filled, the last
one first. Attempt `i` of the call to allocate succeeds iff `alloc i`. -/
def addSlots (alloc : ℕ → Bool) : ℕ → ℕ → Slab → List ℕ → Slab × Bool
  | 0, _, slab, _ => (slab, true)
  | k + 1, i, slab, blocks =>
    if alloc i then
      let r := slabCalloc slab
      addSlots alloc k (i + 1) r.1 (r.2 :: blocks)
    else (blocks.foldl slabFree slab, false)

/-- `ngx_wa_metrics_histogram_add_locked`. -/
def histogramAddLocked (workers : ℕ) (bins : Option (List ℕ)) (alloc : ℕ → Bool) (slab : Slab) :
    Slab × Except Rc (List Histogram) :=
  match newHistogram bins with
  | none => (slab, .error .abort)
  | some h =>
    match addSlots alloc workers 0 slab [] with
    | (slab, false) => (slab, .error .error)
    | (slab, true) => (slab, .ok (List.replicate workers h))

/-- `ngx_wa_shm_kv_set_locked` of a new key in a store without eviction. -/
def kvSetNew (rb : MetricOps) (s : MetricsShm) (n : MetricNode) (granted : Bool) :
    MetricsShm × Rc :=
  if granted then
    (⟨kvInsert rb s.store n, s.nelts + 1, (slabCalloc s.slab).1⟩, .ok)
  else (s, .error)

structure DefineAnswer where
  rc : Rc
  out : Option ℕ
  deriving Repr, DecidableEq

/-- A call of `ngx_wa_metrics_define`; `none` is a value that is not a metric type. -/
structure Define where
  name : Bytes
  type : Option MetricType
  bins : Option (List ℕ)
  alloc : ℕ → Bool

def addMetric (rb : MetricOps) (s : MetricsShm) (name : Bytes) (m : Metric) (granted : Bool) :
    MetricsShm × DefineAnswer :=
  match kvSetNew rb s ⟨crc32 name, name, m⟩ granted with
  | (s, .ok) => (s, ⟨.ok, some (crc32 name)⟩)
  | (s, rc) => (s, ⟨rc, none⟩)

def metricsDefineShm (rb : MetricOps) (s : MetricsShm) (c : Define) :
    MetricsShm × DefineAnswer :=
  let workers := s.store.workers
  match c.type with
  | none => (s, ⟨.abort, none⟩)
  | some type =>
    if s.store.maxMetricNameLength < c.name.length then (s, ⟨.busy, none⟩)
    else
      match kvGet s.store (crc32 c.name) with
      | some _ => (s, ⟨.ok, some (crc32 c.name)⟩)
      | none =>
        match type with
        | .counter => addMetric rb s c.name (.counter (List.replicate workers 0)) (c.alloc 0)
        | .gauge => addMetric rb s c.name (.gauge (List.replicate workers ⟨0, 0⟩)) (c.alloc 0)
        | .histogram =>
          match histogramAddLocked workers c.bins c.alloc s.slab with
          -- `goto error`
          | (slab, .error rc) => ({ s with slab }, ⟨rc, none⟩)
          | (slab, .ok slots) =>
            addMetric rb { s with slab } c.name (.histogram slots) (c.alloc workers)

/-! ### What a failed call leaves -/

/-- The slab after some allocations, `blocks` being what they gave, the last one first. -/
structure Taken (base slab : Slab) (blocks : List ℕ) : Prop where
  live : slab.live = blocks ++ base.live
  frees : slab.frees = base.frees
  next : slab.next = base.next + blocks.length
  count : ∀ b, blocks.count b = if base.next ≤ b ∧ b < slab.next then 1 else 0

/-- The same blocks are allocated, and what was allocated in between was freed once. -/
def SlabRestored (base slab : Slab) : Prop :=
  slab.live = base.live ∧ ∃ freed, slab.frees = base.frees ++ freed ∧
    ∀ b, freed.count b = if base.next ≤ b ∧ b < slab.next then 1 else 0

def ShmUnchanged (s s' : MetricsShm) : Prop :=
  s'.store = s.store ∧ s'.nelts = s.nelts ∧ SlabRestored s.slab s'.slab

theorem taken_nil (slab : Slab) : Taken slab slab [] := by
  refine ⟨rfl, rfl, rfl, ?_⟩
  intro b
  rw [if_neg (by omega)]
  rfl

theorem Taken.calloc {base slab : Slab} {blocks : List ℕ} (h : Taken base slab blocks) :
    Taken base (slabCalloc slab).1 ((slabCalloc slab).2 :: blocks) := by
  obtain ⟨hlive, hfrees, hnext, hcount⟩ := h
  refine ⟨?_, hfrees, ?_, ?_⟩
  · simp only [slabCalloc, hlive, List.cons_append]
  · simp only [slabCalloc, List.length_cons]
    omega
  · intro b
    have hcons : (slab.next :: blocks).count b =
        blocks.count b + if slab.next = b then 1 else 0 := by
      simp only [List.count_cons, beq_iff_eq]
    show (slab.next :: blocks).count b = if base.next ≤ b ∧ b < slab.next + 1 then 1 else 0
    rw [hcons, hcount b]
    split_ifs <;> omega

/-- Blocks freed in the order opposite to that of their allocation. -/
theorem unwind_eq (blocks : List ℕ) : ∀ (slab : Slab) (older : List ℕ),
    slab.live = blocks ++ older →
    (blocks.foldl slabFree slab).live = older ∧
      (blocks.foldl slabFree slab).frees = slab.frees ++ blocks ∧
      (blocks.foldl slabFree slab).next = slab.next := by
  induction blocks with
  | nil => intro slab older h; exact ⟨h, (List.append_nil _).symm, rfl⟩
  | cons b blocks ih =>
    intro slab older h
    have herase : (slabFree slab b).live = blocks ++ older := by
      simp only [slabFree, h, List.cons_append, List.erase_cons_head]
    obtain ⟨h1, h2, h3⟩ := ih (slabFree slab b) older herase
    refine ⟨h1, ?_, h3⟩
    rw [List.foldl_cons, h2]
    simp only [slabFree, List.append_assoc, List.cons_append, List.nil_append]

theorem Taken.unwind {base slab : Slab} {blocks : List ℕ} (h : Taken base slab blocks) :
    SlabRestored base (blocks.foldl slabFree slab) := by
  obtain ⟨h1, h2, h3⟩ := unwind_eq blocks slab base.live h.live
  refine ⟨h1, blocks, by rw [h2, h.frees], ?_⟩
  rw [h3]
  exact h.count

/-- All slots are filled, or the filled ones are given back. -/
theorem addSlots_cases (alloc : ℕ → Bool) (base : Slab) (k : ℕ) :
    ∀ (i : ℕ) (slab : Slab) (blocks : List ℕ), Taken base slab blocks →
      ((addSlots alloc k i slab blocks).2 = true ∧ (∀ j < k, alloc (i + j) = true) ∧
          ∃ blocks', blocks'.length = blocks.length + k ∧
            Taken base (addSlots alloc k i slab blocks).1 blocks') ∨
        ((addSlots alloc k i slab blocks).2 = false ∧ (∃ j < k, alloc (i + j) = false) ∧
          SlabRestored base (addSlots alloc k i slab blocks).1) := by
  induction k with
  | zero =>
    intro i slab blocks h
    left
    exact ⟨rfl, fun j hj => absurd hj (Nat.not_lt_zero j), blocks, rfl, h⟩
  | succ k ih =>
    intro i slab blocks h
    by_cases ha : alloc i = true
    · have hstep : addSlots alloc (k + 1) i slab blocks =
          addSlots alloc k (i + 1) (slabCalloc slab).1 ((slabCalloc slab).2 :: blocks) := by
        rw [addSlots, if_pos ha]
      rw [hstep]
      rcases ih (i + 1) _ _ h.calloc with ⟨hok, hall, blocks', hlen, htaken⟩ | ⟨hno, ⟨j, hj, hf⟩, hr⟩
      · left
        refine ⟨hok, ?_, blocks', by rw [hlen, List.length_cons]; omega, htaken⟩
        intro j hj
        cases j with
        | zero => exact ha
        | succ j => rw [show i + (j + 1) = i + 1 + j by omega]; exact hall j (by omega)
      · right
        exact ⟨hno, ⟨j + 1, by omega, by rw [show i + (j + 1) = i + 1 + j by omega]; exact hf⟩, hr⟩
    · right
      rw [addSlots, if_neg ha]
      exact ⟨rfl, ⟨0, Nat.succ_pos k, by simpa using ha⟩, h.unwind⟩

theorem slabRestored_refl (slab : Slab) : SlabRestored slab slab := by
  refine ⟨rfl, [], (List.append_nil _).symm, ?_⟩
  intro b
  rw [if_neg (by omega)]
  rfl

theorem shmUnchanged_refl (s : MetricsShm) : ShmUnchanged s s :=
  ⟨rfl, rfl, slabRestored_refl s.slab⟩

theorem addMetric_failed (rb : MetricOps) (s : MetricsShm) (name : Bytes) (m : Metric)
    (granted : Bool) (h : (addMetric rb s name m granted).2.rc ≠ .ok) :
    granted = false ∧ (addMetric rb s name m granted).1 = s := by
  cases granted with
  | true => exact absurd rfl h
  | false => exact ⟨rfl, rfl⟩

theorem taken_none {base slab : Slab} (h : Taken base slab []) : slab = base := by
  obtain ⟨hlive, hfrees, hnext, -⟩ := h
  cases slab
  cases base
  simp only [List.nil_append, List.length_nil, Nat.add_zero] at hlive hfrees hnext
  rw [hlive, hfrees, hnext]

/-- All slots of a new histogram get their block, and then the node gets none. -/
def NodeRefused (s : MetricsShm) (c : Define) : Prop :=
  c.type = some .histogram ∧ c.name.length ≤ s.store.maxMetricNameLength ∧
    kvGet s.store (crc32 c.name) = none ∧ (newHistogram c.bins).isSome = true ∧
    0 < s.store.workers ∧ (∀ i < s.store.workers, c.alloc i = true) ∧
    c.alloc s.store.workers = false

/-- A call that fails leaves the zone as it was exactly when it does not fail at the node of a
histogram. -/
theorem failed_define_unchanged_iff (rb : MetricOps) (s : MetricsShm) (c : Define) :
    ((metricsDefineShm rb s c).2.rc ≠ .ok → ShmUnchanged s (metricsDefineShm rb s c).1) ↔
      ¬ NodeRefused s c := by
  by_cases hleak : NodeRefused s c
  · obtain ⟨htype, hname, hnone, hbins, hpos, hall, hnode⟩ := hleak
    have hyes : NodeRefused s c := ⟨htype, hname, hnone, hbins, hpos, hall, hnode⟩
    obtain ⟨h, hh⟩ := Option.isSome_iff_exists.mp hbins
    refine iff_of_false ?_ (not_not.mpr hyes)
    intro hsame
    rcases addSlots_cases c.alloc s.slab s.store.workers 0 s.slab [] (taken_nil s.slab) with
      ⟨hok, -, blocks, hlen, htaken⟩ | ⟨-, ⟨j, hj, hf⟩, -⟩
    · have hrun : metricsDefineShm rb s c =
          ({ s with slab := (addSlots c.alloc s.store.workers 0 s.slab []).1 },
            ⟨.error, none⟩) := by
        rw [metricsDefineShm, htype]
        simp only [if_neg (Nat.not_lt.mpr hname), hnone, histogramAddLocked, hh]
        generalize addSlots c.alloc s.store.workers 0 s.slab [] = r at hok ⊢
        obtain ⟨slab, ok⟩ := r
        simp only at hok
        subst hok
        simp only [hnode]
        rfl
      rw [hrun] at hsame
      obtain ⟨-, -, hlive, -⟩ := hsame (fun h => Rc.noConfusion h)
      have hlength := congrArg List.length (htaken.live.symm.trans hlive)
      simp only [List.length_append, hlen, List.length_nil] at hlength
      omega
    · have hgranted := hall (0 + j) (by omega)
      rw [hf] at hgranted
      exact absurd hgranted (by decide)
  · refine iff_of_true ?_ hleak
    intro hfail
    simp only [metricsDefineShm] at hfail ⊢
    cases htype : c.type with
    | none => exact shmUnchanged_refl s
    | some type =>
      rw [htype] at hfail
      simp only at hfail ⊢
      split
      · exact shmUnchanged_refl s
      · rename_i hname
        rw [if_neg hname] at hfail
        cases hget : kvGet s.store (crc32 c.name) with
        | some a => exact shmUnchanged_refl s
        | none =>
          rw [hget] at hfail
          cases type with
          | counter =>
            simp only at hfail ⊢
            rw [(addMetric_failed _ _ _ _ _ hfail).2]
            exact shmUnchanged_refl s
          | gauge =>
            simp only at hfail ⊢
            rw [(addMetric_failed _ _ _ _ _ hfail).2]
            exact shmUnchanged_refl s
          | histogram =>
            simp only [histogramAddLocked] at hfail ⊢
            cases hnew : newHistogram c.bins with
            | none => exact shmUnchanged_refl s
            | some h =>
              rw [hnew] at hfail
              have hcases := addSlots_cases c.alloc s.slab s.store.workers 0 s.slab []
                (taken_nil s.slab)
              generalize addSlots c.alloc s.store.workers 0 s.slab [] = r at hfail hcases ⊢
              obtain ⟨slab, ok⟩ := r
              rcases hcases with ⟨hok, hall, blocks, hlen, htaken⟩ | ⟨hno, -, hrestored⟩
              · simp only at hok htaken
                subst hok
                simp only at hfail ⊢
                obtain ⟨hnode, hsame⟩ := addMetric_failed _ _ _ _ _ hfail
                -- without workers there are no slots to lose
                have hzero : s.store.workers = 0 := by
                  by_contra hpos
                  refine hleak ⟨htype, by omega, hget, by rw [hnew]; rfl, by omega, ?_, hnode⟩
                  intro i hi
                  rw [← Nat.zero_add i]
                  exact hall i hi
                have hnil : blocks = [] := List.length_eq_zero_iff.mp (by rw [hlen, hzero]; rfl)
                rw [hnil] at htaken
                rw [hsame, taken_none htaken]
                exact shmUnchanged_refl s
              · simp only at hno hrestored
                subst hno
                exact ⟨rfl, rfl, hrestored⟩

/-- One worker: its histogram block is allocated and the node's is not. -/
theorem refused_node_leaks :
    ¬ ∀ (rb : MetricOps) (s : MetricsShm) (c : Define),
      (metricsDefineShm rb s c).2.rc ≠ .ok → ShmUnchanged s (metricsDefineShm rb s c).1 := by
  intro h
  obtain ⟨-, -, hlive, -⟩ := h metricList (emptyShm 1 64)
    ⟨[104], some .histogram, none, fun i => decide (i = 0)⟩ (by decide)
  exact absurd hlive (by decide)

end NgxWasm.Metrics
