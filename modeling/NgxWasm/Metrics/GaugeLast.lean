import NgxWasm.Lib.Run
import NgxWasm.Metrics.Reload

/-!
# The value of a gauge (ngx_wa_metrics.c 47-64, 429-477)

Each worker sets its own slot and stamps it with its millisecond; a reader takes the
lowest-numbered slot among those with the latest stamp. So the last value set is what is
read unless a lower-numbered worker set another one in the same millisecond.
-/

namespace NgxWasm.Metrics

open NgxWasm NgxWasm.Lib
open NgxWasm.Shm.Kv (crc32)

/-- One call of `ngx_wa_metrics_record`: the worker, the value and `ngx_current_msec`. -/
structure Record where
  slot : ℕ
  value : ℕ
  now : ℕ
  alloc : Bool

def recordCall (mid : ℕ) (s : Store) (r : Record) : Store × Rc :=
  metricsRecord s mid r.slot r.value r.now r.alloc

def Record.gauge (r : Record) : Gauge := ⟨r.value, r.now⟩

/-- What slot `j` was set to last, and when. -/
def lastSet (slots : List Gauge) (rs : List Record) (j : ℕ) : Option Gauge :=
  match rs.reverse.find? (fun r => r.slot = j) with
  | some r => some r.gauge
  | none => slots[j]?

theorem lastSet_nil (slots : List Gauge) (j : ℕ) : lastSet slots [] j = slots[j]? := rfl

theorem lastSet_cons (slots : List Gauge) (r : Record) (rs : List Record) (j : ℕ)
    (hr : r.slot < slots.length) :
    lastSet slots (r :: rs) j = lastSet (slots.set r.slot r.gauge) rs j := by
  simp only [lastSet, List.reverse_cons, List.find?_append]
  cases rs.reverse.find? fun r => decide (r.slot = j) with
  | some x => rfl
  | none =>
    by_cases hj : r.slot = j
    · subst hj
      simp [hr]
    · simp [hj, List.getElem?_set_ne hj]

/-! ### The slots after a run -/

theorem find_gauge {s : Store} {mid : ℕ} {slots : List Gauge}
    (h : find s mid = some (.gauge slots)) :
    ∃ a, kvGet s mid = some a ∧ (s.node a).metric = .gauge slots := Option.map_eq_some_iff.mp h

theorem recordCall_find {s : Store} {mid : ℕ} {slots : List Gauge} (r : Record)
    (h : find s mid = some (.gauge slots)) :
    find (recordCall mid s r).1 mid = some (.gauge (slots.set r.slot r.gauge)) := by
  obtain ⟨a, hget, hm⟩ := find_gauge h
  have hcall : (recordCall mid s r).1 = setMetric s a (.gauge (slots.set r.slot r.gauge)) := by
    simp only [recordCall, metricsRecord, hget, hm]
    rfl
  have hkeys : (fun b => ((setMetric s a (.gauge (slots.set r.slot r.gauge))).node b).hash) =
      fun b => (s.node b).hash := funext (setMetric_hash s a _)
  have hstay : kvGet (setMetric s a (.gauge (slots.set r.slot r.gauge))) mid = some a := by
    rw [kvGet, hkeys]
    exact hget
  rw [hcall, find, hstay, Option.map_some]
  simp only [setMetric, Function.update_self]

/-- After a run each slot holds what it was set to last. -/
theorem records_find (mid : ℕ) (rs : List Record) :
    ∀ {s : Store} {slots : List Gauge}, find s mid = some (.gauge slots) →
      (∀ r ∈ rs, r.slot < slots.length) →
      ∃ slots', find (Run.exec (recordCall mid) s rs).1 mid = some (.gauge slots') ∧
        slots'.length = slots.length ∧ ∀ j, slots'[j]? = lastSet slots rs j := by
  induction rs with
  | nil =>
    intro s slots h _
    exact ⟨slots, h, rfl, fun j => (lastSet_nil slots j).symm⟩
  | cons r rs ih =>
    intro s slots h hslots
    have hr := hslots r (List.mem_cons_self ..)
    have hrest : ∀ x ∈ rs, x.slot < (slots.set r.slot r.gauge).length := by
      intro x hx
      rw [List.length_set]
      exact hslots x (List.mem_cons_of_mem _ hx)
    obtain ⟨slots', hfind, hlen, hlast⟩ := ih (recordCall_find r h) hrest
    refine ⟨slots', hfind, by rw [hlen, List.length_set], ?_⟩
    intro j
    rw [hlast j, lastSet_cons slots r rs j hr]

/-! ### What is read -/

/-- The scan stops at the first slot with the latest stamp. -/
theorem latestGauge_first {t : ℕ} {g : Gauge} (slots : List Gauge) (val l : ℕ)
    (hle : ∀ x ∈ slots, x.lastUpdate ≤ t) (hl : l ≤ t) :
    (l = t → latestGauge slots val l = val) ∧
      (l ≠ t → slots.find? (fun x => x.lastUpdate = t) = some g →
        latestGauge slots val l = g.value) := by
  induction slots generalizing val l with
  | nil => exact ⟨fun _ => rfl, fun _ h => absurd h (by simp)⟩
  | cons x slots ih =>
    have hx := hle x (List.mem_cons_self ..)
    have hrest : ∀ y ∈ slots, y.lastUpdate ≤ t := fun y hy => hle y (List.mem_cons_of_mem _ hy)
    constructor
    · intro heq
      rw [latestGauge, if_neg (by omega)]
      exact (ih val l hrest hl).1 heq
    · intro hne hfind
      rw [List.find?_cons] at hfind
      by_cases ht : x.lastUpdate = t
      · simp only [ht, decide_true] at hfind
        rw [latestGauge, if_pos (by omega), ← Option.some.inj hfind]
        exact (ih x.value x.lastUpdate hrest hx).1 ht
      · simp only [ht, decide_false] at hfind
        rw [latestGauge]
        split
        · exact (ih x.value x.lastUpdate hrest hx).2 ht hfind
        · exact (ih val l hrest hl).2 hne hfind

theorem getGauge_first {t : ℕ} {g : Gauge} (slots : List Gauge)
    (hle : ∀ x ∈ slots, x.lastUpdate ≤ t)
    (hfind : slots.find? (fun x => x.lastUpdate = t) = some g) :
    getGauge slots = some g.value := by
  cases slots with
  | nil => exact absurd hfind (by simp)
  | cons x slots =>
    have hx := hle x (List.mem_cons_self ..)
    have hrest : ∀ y ∈ slots, y.lastUpdate ≤ t := fun y hy => hle y (List.mem_cons_of_mem _ hy)
    have hscan := latestGauge_first (g := g) slots x.value x.lastUpdate hrest hx
    rw [List.find?_cons] at hfind
    rw [getGauge]
    by_cases ht : x.lastUpdate = t
    · simp only [ht, decide_true] at hfind
      rw [hscan.1 ht, ← Option.some.inj hfind]
    · simp only [ht, decide_false] at hfind
      rw [hscan.2 ht hfind]

/-- The lowest-numbered slot that was set at time `t` holds `value`. -/
def LowestHolds (slots : List Gauge) (rs : List Record) (t value : ℕ) : Prop :=
  ∀ j g, lastSet slots rs j = some g → g.lastUpdate = t →
    (∀ i < j, ∀ x, lastSet slots rs i = some x → x.lastUpdate ≠ t) → g.value = value

theorem lastSet_stamp {slots : List Gauge} {rs : List Record} {t : ℕ}
    (hinit : ∀ g ∈ slots, g.lastUpdate ≤ t) (hrs : ∀ r ∈ rs, r.now ≤ t) {j : ℕ} {g : Gauge}
    (h : lastSet slots rs j = some g) : g.lastUpdate ≤ t := by
  simp only [lastSet] at h
  split at h
  · rename_i r hr
    have hmem := List.mem_reverse.mp (List.mem_of_find?_eq_some hr)
    rw [← Option.some.inj h]
    exact hrs r hmem
  · exact hinit g (List.mem_of_getElem? h)

theorem lastSet_last (slots : List Gauge) (rs : List Record) (last : Record) :
    lastSet slots (rs ++ [last]) last.slot = some last.gauge := by
  simp [lastSet]

/-- A gauge reads as the value of the last call exactly when the lowest-numbered of the slots
set in that millisecond holds this value. -/
theorem gauge_is_last_iff (s : Store) (mid : ℕ) (slots : List Gauge) (rs : List Record)
    (last : Record) (hgauge : find s mid = some (.gauge slots))
    (hslots : ∀ r ∈ rs ++ [last], r.slot < slots.length)
    (hinit : ∀ g ∈ slots, ∀ r ∈ rs ++ [last], g.lastUpdate ≤ r.now)
    (htimes : (rs ++ [last]).Pairwise fun r r' => r.now ≤ r'.now) :
    metricsGet (Run.exec (recordCall mid) s (rs ++ [last])).1 mid = .gauge last.value ↔
      LowestHolds slots (rs ++ [last]) last.now last.value := by
  obtain ⟨slots', hfind, hlen, hlast⟩ := records_find mid (rs ++ [last]) hgauge hslots
  have hmem : last ∈ rs ++ [last] := List.mem_append_right _ (List.mem_singleton_self _)
  have hold : ∀ r ∈ rs ++ [last], r.now ≤ last.now := by
    intro r hr
    rcases List.mem_append.mp hr with hr | hr
    · exact (List.pairwise_append.mp htimes).2.2 r hr last (List.mem_singleton_self _)
    · rw [List.mem_singleton.mp hr]
  have hle : ∀ x ∈ slots', x.lastUpdate ≤ last.now := by
    intro x hx
    obtain ⟨j, hj⟩ := List.mem_iff_getElem?.mp hx
    rw [hlast j] at hj
    exact lastSet_stamp (fun g hg => hinit g hg last hmem) hold hj
  -- some slot carries the latest stamp, that of the last call
  have hown : slots'[last.slot]? = some last.gauge := by
    rw [hlast, lastSet_last]
  cases hfirst : slots'.find? (fun x => x.lastUpdate = last.now) with
  | none =>
    have hnone := List.find?_eq_none.mp hfirst last.gauge (List.mem_of_getElem? hown)
    exact absurd (by simp [Record.gauge]) hnone
  | some g =>
    have hget : metricsGet (Run.exec (recordCall mid) s (rs ++ [last])).1 mid = .gauge g.value := by
      rw [metricsGet_eq, hfind]
      simp only [getMetric, getGauge_first slots' hle hfirst]
    obtain ⟨hstamp, k, hk, hkg, hbefore⟩ := List.find?_eq_some_iff_getElem.mp hfirst
    have hkget : slots'[k]? = some g := by rw [List.getElem?_eq_getElem hk, hkg]
    have hlow : ∀ i < k, ∀ x, lastSet slots (rs ++ [last]) i = some x →
        x.lastUpdate ≠ last.now := by
      intro i hi x hx
      rw [← hlast i, List.getElem?_eq_getElem (by omega)] at hx
      have hne := hbefore i hi
      rw [Option.some.inj hx] at hne
      simpa using hne
    rw [hget]
    constructor
    · intro heq j x hx hxt hxlow
      have hval : g.value = last.value := Got.gauge.inj heq
      have hjk : j = k := by
        rcases Nat.lt_trichotomy j k with hlt | heq | hgt
        · exact absurd hxt (hlow j hlt x hx)
        · exact heq
        · exact absurd (by simpa using hstamp) (hxlow k hgt g (by rw [← hlast k]; exact hkget))
      rw [hjk, ← hlast k, hkget] at hx
      rw [← Option.some.inj hx]
      exact hval
    · intro hholds
      rw [hholds k g (by rw [← hlast k]; exact hkget) (by simpa using hstamp) hlow]

/-- A gauge of two workers that nobody has set. -/
def unsetGauge : Store := oneMetric 2 (.gauge [⟨0, 0⟩, ⟨0, 0⟩])

/-- Worker 0 sets 3 in a later millisecond than worker 1 sets 4. -/
theorem gauge_is_last_later :
    metricsGet (Run.exec (recordCall (crc32 [104])) unsetGauge
        ([⟨0, 2, 7, true⟩, ⟨1, 4, 7, true⟩] ++ [⟨0, 3, 8, true⟩])).1 (crc32 [104]) = .gauge 3 := by
  refine (gauge_is_last_iff unsetGauge (crc32 [104]) [⟨0, 0⟩, ⟨0, 0⟩]
    [⟨0, 2, 7, true⟩, ⟨1, 4, 7, true⟩] ⟨0, 3, 8, true⟩ (by decide) (by simp) (by simp)
    (by simp)).mpr ?_
  intro j g hg ht _
  match j with
  | 0 =>
    simp [lastSet, Record.gauge] at hg
    rw [← hg]
  | 1 =>
    simp [lastSet, Record.gauge] at hg
    rw [← hg] at ht
    exact absurd ht (by decide)
  | j + 2 => simp [lastSet] at hg

/-- Worker 0 sets 1, then worker 1 sets 2 in the same millisecond: 1 is read. -/
theorem gauge_tie_loses :
    ¬ ∀ (s : Store) (mid : ℕ) (slots : List Gauge) (rs : List Record) (last : Record),
      find s mid = some (.gauge slots) → (∀ r ∈ rs ++ [last], r.slot < slots.length) →
      (∀ g ∈ slots, ∀ r ∈ rs ++ [last], g.lastUpdate ≤ r.now) →
      (rs ++ [last]).Pairwise (fun r r' => r.now ≤ r'.now) →
      metricsGet (Run.exec (recordCall mid) s (rs ++ [last])).1 mid = .gauge last.value := by
  intro h
  have hread := h unsetGauge (crc32 [104]) [⟨0, 0⟩, ⟨0, 0⟩] [⟨0, 1, 7, true⟩] ⟨1, 2, 7, true⟩
    (by decide) (by simp) (by simp) (by simp)
  have hone : metricsGet (Run.exec (recordCall (crc32 [104])) unsetGauge
      ([⟨0, 1, 7, true⟩] ++ [⟨1, 2, 7, true⟩])).1 (crc32 [104]) = .gauge 1 := by decide
  rw [hone] at hread
  exact absurd hread (by decide)

end NgxWasm.Metrics
