import NgxWasm.Metrics.HistogramRecord
import Mathlib.Algebra.BigOperators.Group.List.Basic
import Mathlib.Data.Nat.Log

/-!
# The bin of a sample (ngx_wa_histogram.c 79-141, 240-270)

Which bin a record increments, for LOG2 and CUSTOM histograms. The scan for a LOG2 bound takes
index 0 for "no larger bound yet", and 2^31 is mapped to the last bin.
-/

namespace NgxWasm.Metrics

open NgxWasm.Lib.Run

/-! ### What a record is for -/

/-- `pow(2, ceil(log2(v)))`, where it is a `uint32_t`. -/
def log2Bound (v : ℕ) : ℕ := if v ≤ 2 ^ 31 then 2 ^ Nat.clog 2 v else maxUint32

/-- The bins that are initialized. -/
def present (h : Histogram) : List Bin :=
  match h.hType with
  | .log2 => usedBins h.bins
  | .custom => h.bins

/-- A further bin can be made. -/
def HasRoom (h : Histogram) (alloc : Bool) : Prop :=
  (present h).length < h.nBins ∨ alloc = true ∧ h.nBins ≠ binsMax

def HasBound (bins : List Bin) (ub : ℕ) : Prop := ∃ b ∈ bins, b.upperBound = ub

instance (h : Histogram) (alloc : Bool) : Decidable (HasRoom h alloc) :=
  inferInstanceAs (Decidable ((present h).length < h.nBins ∨ alloc = true ∧ h.nBins ≠ binsMax))

instance (bins : List Bin) (ub : ℕ) : Decidable (HasBound bins ub) :=
  inferInstanceAs (Decidable (∃ b ∈ bins, b.upperBound = ub))

/-- The bins a sample can go to: those present, and the one made for it. -/
def binsFor (h : Histogram) (s : Sample) : List Bin :=
  if h.hType = .log2 ∧ ¬ HasBound (present h) (log2Bound s.value) ∧ HasRoom h s.alloc then
    ⟨log2Bound s.value, 0⟩ :: present h
  else present h

/-- The smallest upper bound that is not below the value, or the last bin. -/
def Smallest (bins : List Bin) (v : ℕ) (b : Bin) : Prop :=
  (v ≤ b.upperBound ∧ ∀ x ∈ bins, v ≤ x.upperBound → b.upperBound ≤ x.upperBound) ∨
    maxUint32 < v ∧ b.upperBound = maxUint32

def total (bins : List Bin) : ℕ := (bins.map (·.count)).sum

/-- One bin more by one, the others as they were. -/
def Increments (h : Histogram) (s : Sample) (h' : Histogram) : Prop :=
  ∃ b rest, (binsFor h s).Perm (b :: rest) ∧
    (present h').Perm (⟨b.upperBound, (b.count + 1) % 2 ^ 32⟩ :: rest) ∧
    Smallest (binsFor h s) s.value b

def RecordsRight (h : Histogram) (s : Sample) : Prop :=
  ∃ h', histogramRecord h s.value s.alloc = some h' ∧ h'.sum = (h.sum + s.value) % 2 ^ 64 ∧
    Increments h s h'

/-- The first bin has the smallest bound for the value, and others have larger ones. -/
def FirstIsClosest (bins : List Bin) (v : ℕ) : Prop :=
  ∃ b rest, bins = b :: rest ∧ rest ≠ [] ∧ v ≤ b.upperBound ∧
    ∀ x ∈ rest, v ≤ x.upperBound → b.upperBound < x.upperBound

/-- A LOG2 histogram does not get 2^31 while it has its bin or room for it, nor, when the bin
of the value is missing and none can be made, a value for the first of several bins. -/
def RecordOk (h : Histogram) (s : Sample) : Prop :=
  h.hType = .log2 →
    (s.value = 2 ^ 31 → ¬ HasBound (present h) (2 ^ 31) ∧ ¬ HasRoom h s.alloc) ∧
    (¬ HasBound (present h) (log2Bound s.value) → ¬ HasRoom h s.alloc →
      ¬ FirstIsClosest (present h) s.value)

/-! ### Bounds of values -/

theorem log2Bound_of_power {v k : ℕ} (hk : k ≤ 31) (hle : v ≤ 2 ^ k) (hlow : k = 0 ∨ 2 ^ k < 2 * v) :
    log2Bound v = 2 ^ k := by
  have hpow : 2 ^ k ≤ 2 ^ 31 := Nat.pow_le_pow_right (by omega) hk
  rw [log2Bound, if_pos (by omega)]
  congr 1
  have hup : Nat.clog 2 v ≤ k := Nat.clog_le_of_le_pow hle
  have hself := Nat.le_pow_clog Nat.one_lt_two v
  rcases hlow with rfl | hlow
  · omega
  · by_contra hne
    have hlt : Nat.clog 2 v + 1 ≤ k := by omega
    have hpow' : 2 ^ (Nat.clog 2 v + 1) ≤ 2 ^ k := Nat.pow_le_pow_right (by omega) hlt
    rw [Nat.pow_succ] at hpow'
    omega

theorem binLog2UpperBound_eq {v : ℕ} (hv : v ≠ 2 ^ 31) : binLog2UpperBound v = log2Bound v := by
  rcases binLog2UpperBound_spec v with ⟨hlarge, h⟩ | ⟨-, k, hk, h, hle, hlow⟩
  · rw [h, log2Bound, if_neg (by omega)]
  · rw [h, log2Bound_of_power hk hle hlow]

/-- A power of two or the largest bound that is not below a value is not below its bound. -/
theorem log2Bound_le {v u : ℕ} (hu : u = maxUint32 ∨ ∃ k ≤ 31, u = 2 ^ k) (hle : v ≤ u) :
    log2Bound v ≤ u := by
  rcases hu with rfl | ⟨k, hk, rfl⟩
  · rw [log2Bound]
    split
    next hv =>
      have hc : Nat.clog 2 v ≤ 31 := Nat.clog_le_of_le_pow hv
      have hpow : 2 ^ Nat.clog 2 v ≤ 2 ^ 31 := Nat.pow_le_pow_right (by omega) hc
      rw [maxUint32]
      omega
    next => exact Nat.le_refl _
  · have hpow : 2 ^ k ≤ 2 ^ 31 := Nat.pow_le_pow_right (by omega) hk
    rw [log2Bound, if_pos (by omega)]
    exact Nat.pow_le_pow_right (by omega) (Nat.clog_le_of_le_pow hle)

theorem le_log2Bound {v : ℕ} (hv : v ≤ maxUint32) : v ≤ log2Bound v := by
  rw [log2Bound]
  split
  · exact Nat.le_pow_clog Nat.one_lt_two v
  · exact hv

theorem log2Bound_le_max (v : ℕ) : log2Bound v ≤ maxUint32 := by
  rw [log2Bound]
  split
  next hv =>
    have hpow : 2 ^ Nat.clog 2 v ≤ 2 ^ 31 :=
      Nat.pow_le_pow_right (by omega) (Nat.clog_le_of_le_pow hv)
    rw [maxUint32]
    omega
  next => exact Nat.le_refl _

/-! ### Tables as bins -/

theorem Table.present_eq {h : Histogram} {bs : List ℕ} {cnt : ℕ → ℕ} (t : Table h bs cnt)
    (hlog : h.hType = .log2) : present h = bs.map fun u => ⟨u, cnt u⟩ := by
  rw [present, hlog]
  exact t.used

theorem hasBound_map {bs : List ℕ} {cnt : ℕ → ℕ} {u : ℕ} :
    HasBound (bs.map fun u => ⟨u, cnt u⟩) u ↔ u ∈ bs := by
  simp [HasBound]

/-- A count that goes up is that of one bin. -/
theorem bump_perm {bs : List ℕ} (hnd : bs.Nodup) {u : ℕ} (hu : u ∈ bs) (cnt : ℕ → ℕ) :
    ∃ rest, (bs.map fun u => (⟨u, cnt u⟩ : Bin)).Perm (⟨u, cnt u⟩ :: rest) ∧
      (bs.map fun u' => (⟨u', bump cnt u 1 u'⟩ : Bin)).Perm
        (⟨u, (cnt u + 1) % 2 ^ 32⟩ :: rest) := by
  refine ⟨(bs.erase u).map fun u => ⟨u, cnt u⟩, ?_, ?_⟩
  · exact (List.perm_cons_erase hu).map _
  · have hp := (List.perm_cons_erase hu).map fun u' => (⟨u', bump cnt u 1 u'⟩ : Bin)
    rw [List.map_cons, bump_self] at hp
    have hsame : (bs.erase u).map (fun u' => (⟨u', bump cnt u 1 u'⟩ : Bin)) =
        (bs.erase u).map fun u => ⟨u, cnt u⟩ := by
      refine List.map_congr_left fun x hx => ?_
      have hne : x ≠ u := by
        rintro rfl
        exact hnd.not_mem_erase hx
      rw [bump_of_ne hne]
    rw [hsame] at hp
    exact hp

theorem insertBound_perm (ub : ℕ) (bs : List ℕ) : (insertBound ub bs).Perm (ub :: bs) := by
  rw [insertBound]
  refine List.perm_middle.trans ?_
  rw [List.take_append_drop]

/-- The bin that a record of these bounds increments is no other. -/
theorem incremented_unique {bs : List ℕ} {u : ℕ} (hu : u ∈ bs) {cnt : ℕ → ℕ}
    {b : Bin} {rest : List Bin} (hbase : (bs.map fun u => (⟨u, cnt u⟩ : Bin)).Perm (b :: rest))
    (hnew : (bs.map fun u' => (⟨u', bump cnt u 1 u'⟩ : Bin)).Perm
      (⟨b.upperBound, (b.count + 1) % 2 ^ 32⟩ :: rest)) : b.upperBound = u := by
  by_contra hne
  have hmem : (⟨u, cnt u⟩ : Bin) ∈ b :: rest :=
    hbase.mem_iff.mp (List.mem_map.mpr ⟨u, hu, rfl⟩)
  rcases List.mem_cons.mp hmem with heq | hrest
  · exact hne (by rw [← heq])
  · obtain ⟨x, -, hx⟩ := List.mem_map.mp (hnew.mem_iff.mpr (List.mem_cons_of_mem _ hrest))
    obtain ⟨hxu, hcount⟩ := Bin.mk.inj hx
    rw [hxu, bump_self] at hcount
    omega

/-! ### Records of a LOG2 histogram -/

/-- Of increasing bounds, the first one above `ub` is the smallest one above it. -/
theorem first_larger {ub : ℕ} {l : List ℕ} (hs : l.Pairwise (· < ·)) (hex : ∃ x ∈ l, ub < x) :
    ∃ u, l[(l.takeWhile fun b => ¬ ub < b).length]? = some u ∧ ub < u ∧
      ∀ x ∈ l, ub < x → u ≤ x := by
  induction l with
  | nil =>
    obtain ⟨x, hx, -⟩ := hex
    exact absurd hx List.not_mem_nil
  | cons b l ih =>
    obtain ⟨hb, hl⟩ := List.pairwise_cons.mp hs
    by_cases hlt : ub < b
    · refine ⟨b, by simp [hlt], hlt, ?_⟩
      intro x hx _
      rcases List.mem_cons.mp hx with rfl | hx
      · exact Nat.le_refl _
      · exact Nat.le_of_lt (hb x hx)
    · have hex' : ∃ x ∈ l, ub < x := by
        obtain ⟨x, hx, hx'⟩ := hex
        rcases List.mem_cons.mp hx with rfl | hx
        · exact absurd hx' hlt
        · exact ⟨x, hx, hx'⟩
      obtain ⟨u, hu, hgt, hmin⟩ := ih hl hex'
      have htake : ((b :: l).takeWhile fun b => ¬ ub < b) = b :: l.takeWhile fun b => ¬ ub < b :=
        List.takeWhile_cons_of_pos (by simpa using hlt)
      refine ⟨u, ?_, hgt, ?_⟩
      · rw [htake, List.length_cons, List.getElem?_cons_succ]
        exact hu
      intro x hx hx'
      rcases List.mem_cons.mp hx with rfl | hx
      · exact absurd hx' hlt
      · exact hmin x hx hx'

theorem Table.hasRoom_iff {h : Histogram} {bs : List ℕ} {cnt : ℕ → ℕ} (t : Table h bs cnt)
    (hlog : h.hType = .log2) (alloc : Bool) : HasRoom h alloc ↔ Table.Room h bs true alloc := by
  rw [HasRoom, t.present_eq hlog, List.length_map, Table.Room]
  simp

theorem Table.record_full {h : Histogram} {bs : List ℕ} {cnt : ℕ → ℕ} (t : Table h bs cnt)
    (hlog : h.hType = .log2) (s : Sample) (hub : binLog2UpperBound s.value ∉ bs)
    (hfull : ¬ Table.Room h bs true s.alloc) :
    ∃ h' u, histogramRecord h s.value s.alloc = some h' ∧ h'.hType = .log2 ∧
      h'.sum = (h.sum + s.value) % 2 ^ 64 ∧
      bs[place (binLog2UpperBound s.value) bs]? = some u ∧ Table h' bs (bump cnt u 1) := by
  have tsum := t.withSum ((h.sum + s.value) % 2 ^ 64)
  have hlt := t.place_lt hub (t.new_lt hub)
  have hu := List.getElem?_eq_getElem hlt
  obtain ⟨h', hadd, ht, htype, -, hsum⟩ := tsum.add hu 1
  refine ⟨h', _, ?_, htype.trans hlog, hsum, hu, ht⟩
  have hbin := tsum.log2Bin_full hub hfull
  rw [hlog] at hadd
  simp only [histogramRecord, recordBin, hlog] at hbin ⊢
  rw [hbin]
  exact hadd

/-- The bound that a full histogram uses is right unless the first bin would have been. -/
theorem closest_iff {bs : List ℕ} {cnt : ℕ → ℕ} {v u : ℕ} (harr : Arranged bs)
    (hpow : ∀ x ∈ bs, x = maxUint32 ∨ ∃ k ≤ 31, x = 2 ^ k) (hub : log2Bound v ∉ bs)
    (hu : bs[place (log2Bound v) bs]? = some u) :
    Smallest (bs.map fun u => ⟨u, cnt u⟩) v ⟨u, cnt u⟩ ↔
      ¬ FirstIsClosest (bs.map fun u => (⟨u, cnt u⟩ : Bin)) v := by
  have hlt : log2Bound v < maxUint32 := by
    refine Nat.lt_of_le_of_ne (log2Bound_le_max v) ?_
    intro heq
    exact hub (heq ▸ harr.max_mem)
  have hv : v ≤ maxUint32 := by
    by_contra hgt
    rw [log2Bound, if_neg (by rw [maxUint32] at hgt; omega)] at hlt
    omega
  -- above the value means above its bound
  have habove : ∀ x ∈ bs, (v ≤ x ↔ log2Bound v < x) := by
    intro x hx
    constructor
    · intro hle
      refine Nat.lt_of_le_of_ne (log2Bound_le (hpow x hx) hle) ?_
      intro heq
      exact hub (heq ▸ hx)
    · intro hgt
      exact (le_log2Bound hv).trans (Nat.le_of_lt hgt)
  have hsmall : Smallest (bs.map fun u => ⟨u, cnt u⟩) v ⟨u, cnt u⟩ ↔
      v ≤ u ∧ ∀ x ∈ bs, v ≤ x → u ≤ x := by
    simp only [Smallest, List.forall_mem_map, Nat.not_lt.mpr hv, false_and, or_false]
  rw [hsmall]
  cases harr with
  | empty =>
    have hmax : u = maxUint32 := by
      rw [show place (log2Bound v) [maxUint32] = 0 from rfl] at hu
      exact (Option.some.inj hu).symm
    refine iff_of_true ⟨by rw [hmax]; exact hv, ?_⟩ ?_
    · intro x hx _
      rw [hmax, List.mem_singleton.mp hx]
    · intro hfirst
      obtain ⟨b, rest, heq, hne, -⟩ := hfirst
      exact hne (List.cons.inj heq).2.symm
  | cons b init hfinite hnew hsorted =>
    have hplace : place (log2Bound v) (b :: (init ++ [maxUint32])) =
        ((init ++ [maxUint32]).takeWhile fun x => ¬ log2Bound v < x).length + 1 := by
      rw [Nat.add_comm]
      cases init <;> rfl
    rw [hplace, List.getElem?_cons_succ] at hu
    have hmem : maxUint32 ∈ init ++ [maxUint32] :=
      List.mem_append_right _ (List.mem_singleton_self _)
    obtain ⟨w, hw, hgt, hmin⟩ := first_larger hsorted ⟨maxUint32, hmem, hlt⟩
    have hwu : w = u := Option.some.inj (hw.symm.trans hu)
    subst hwu
    have hwtail : w ∈ init ++ [maxUint32] := List.mem_of_getElem? hw
    have hwv : v ≤ w := (habove w (List.mem_cons_of_mem _ hwtail)).mpr hgt
    constructor
    · intro hall hfirst
      obtain ⟨c, rest, heq, -, hle, hfar⟩ := hfirst
      rw [List.map_cons] at heq
      obtain ⟨rfl, rfl⟩ := List.cons.inj heq
      have hwb := hall.2 b (List.mem_cons_self ..) hle
      have hbw := hfar ⟨w, cnt w⟩ (List.mem_map.mpr ⟨w, hwtail, rfl⟩) hwv
      exact absurd hbw (Nat.not_lt.mpr hwb)
    · intro hno
      refine ⟨hwv, ?_⟩
      intro x hx hle
      rcases List.mem_cons.mp hx with rfl | hx
      · by_contra hfar
        refine hno ⟨_, _, rfl, by simp, hle, ?_⟩
        intro y hy hyv
        obtain ⟨z, hz, rfl⟩ := List.mem_map.mp hy
        have hwz := hmin z hz ((habove z (List.mem_cons_of_mem _ hz)).mp hyv)
        show x < z
        omega
      · exact hmin x hx ((habove x (List.mem_cons_of_mem _ hx)).mp hle)

/-- What a record that is right says of a histogram whose bins are known. -/
theorem increments_iff {h : Histogram} {s : Sample} {h' : Histogram}
    (hrec : histogramRecord h s.value s.alloc = some h')
    (hsum : h'.sum = (h.sum + s.value) % 2 ^ 64) : RecordsRight h s ↔ Increments h s h' := by
  constructor
  · intro hright
    obtain ⟨g, hg, -, hinc⟩ := hright
    rw [hrec] at hg
    rwa [Option.some.inj hg]
  · intro hinc
    exact ⟨h', hrec, hsum, hinc⟩

theorem smallest_congr {bins : List Bin} {v : ℕ} {b c : Bin} (h : b.upperBound = c.upperBound) :
    Smallest bins v b ↔ Smallest bins v c := by
  rw [Smallest, Smallest, h]

/-- A record that counts a present bound is right exactly when this is the smallest one. -/
theorem increments_present_iff {h h' : Histogram} {s : Sample} {bs : List ℕ} {cnt : ℕ → ℕ} {u : ℕ}
    (hnd : bs.Nodup) (hu : u ∈ bs) (hbase : (binsFor h s).Perm (bs.map fun u => ⟨u, cnt u⟩))
    (hnew : present h' = bs.map fun u' => ⟨u', bump cnt u 1 u'⟩) :
    Increments h s h' ↔ Smallest (binsFor h s) s.value ⟨u, cnt u⟩ := by
  obtain ⟨rest, hold, hbump⟩ := bump_perm hnd hu cnt
  constructor
  · intro hinc
    obtain ⟨b, rest', hb, hb', hsmall⟩ := hinc
    rw [hnew] at hb'
    have hbu := incremented_unique hu (hbase.symm.trans hb) hb'
    exact (smallest_congr (b := b) (c := ⟨u, cnt u⟩) hbu).mp hsmall
  · intro hsmall
    refine ⟨⟨u, cnt u⟩, rest, hbase.trans hold, ?_, hsmall⟩
    rw [hnew]
    exact hbump

theorem Arranged.tail_nil {b : ℕ} {tail : List ℕ} (h : Arranged (b :: tail))
    (hb : b = maxUint32) : tail = [] := by
  cases h with
  | empty => rfl
  | cons _ init hfinite => exact absurd hb (Nat.ne_of_lt hfinite)

section Log2

variable {h : Histogram} {s : Sample} {bs : List ℕ} {cnt : ℕ → ℕ}

theorem binsFor_new (t : Table h bs cnt) (hlog : h.hType = .log2) (hub : log2Bound s.value ∉ bs)
    (hroom : Table.Room h bs true s.alloc) :
    binsFor h s = ⟨log2Bound s.value, 0⟩ :: bs.map fun u => ⟨u, cnt u⟩ := by
  have hpres := t.present_eq hlog
  have hmissing : ¬ HasBound (present h) (log2Bound s.value) := by
    rw [hpres, hasBound_map]
    exact hub
  rw [binsFor, if_pos ⟨hlog, hmissing, (t.hasRoom_iff hlog s.alloc).mpr hroom⟩, hpres]

theorem binsFor_old (t : Table h bs cnt) (hlog : h.hType = .log2)
    (hno : ¬ (log2Bound s.value ∉ bs ∧ Table.Room h bs true s.alloc)) :
    binsFor h s = bs.map fun u => ⟨u, cnt u⟩ := by
  have hpres := t.present_eq hlog
  rw [binsFor, if_neg, hpres]
  intro hall
  refine hno ⟨?_, (t.hasRoom_iff hlog s.alloc).mp hall.2.2⟩
  intro hmem
  refine hall.2.1 ?_
  rw [hpres, hasBound_map]
  exact hmem

theorem recordOk_iff (t : Table h bs cnt) (hlog : h.hType = .log2) :
    RecordOk h s ↔ (s.value = 2 ^ 31 → 2 ^ 31 ∉ bs ∧ ¬ Table.Room h bs true s.alloc) ∧
      (log2Bound s.value ∉ bs → ¬ Table.Room h bs true s.alloc →
        ¬ FirstIsClosest (bs.map fun u => ⟨u, cnt u⟩) s.value) := by
  simp only [RecordOk, hlog, forall_true_left, t.present_eq hlog, hasBound_map,
    t.hasRoom_iff hlog s.alloc]

/-- 2^31 is counted in the last bin. -/
theorem recordsRight_half_iff (t : Table h bs cnt) (hlog : h.hType = .log2)
    (hpow : ∀ u ∈ bs, u = maxUint32 ∨ ∃ k ≤ 31, u = 2 ^ k) (h31 : s.value = 2 ^ 31) :
    RecordsRight h s ↔ RecordOk h s := by
  have hub : binLog2UpperBound s.value = maxUint32 := by rw [h31]; decide
  have hself : log2Bound s.value = 2 ^ 31 := by
    rw [h31]
    exact log2Bound_of_power (Nat.le_refl 31) (Nat.le_refl _) (Or.inr (by omega))
  have hmem : maxUint32 ∈ bs := t.arranged.max_mem
  -- the other bounds from 2^31 on
  have honly : 2 ^ 31 ∉ bs → ∀ x ∈ bs, 2 ^ 31 ≤ x → x = maxUint32 := by
    intro hno x hx hle
    rcases hpow x hx with rfl | ⟨k, hk, rfl⟩
    · rfl
    · have hpow31 : 2 ^ k ≤ 2 ^ 31 := Nat.pow_le_pow_right (by omega) hk
      exact absurd ((Nat.le_antisymm hle hpow31) ▸ hx) hno
  obtain ⟨h', hrec, htype', hsum, hcase⟩ := record_table t hlog s
  rw [hub] at hcase
  obtain ⟨-, t'⟩ := hcase.resolve_right fun hno => hno.1.1 hmem
  rw [Table.putBound, if_pos hmem] at t'
  rw [increments_iff hrec hsum, recordOk_iff t hlog, hself]
  by_cases hnew : 2 ^ 31 ∉ bs ∧ Table.Room h bs true s.alloc
  · refine iff_of_false ?_ (fun hok => (hok.1 h31).2 hnew.2)
    intro hinc
    obtain ⟨b, rest, hb, hb', -⟩ := hinc
    have hlen := hb.length_eq
    have hlen' := hb'.length_eq
    rw [binsFor_new t hlog (by rw [hself]; exact hnew.1) hnew.2] at hlen
    rw [t'.present_eq htype'] at hlen'
    simp only [List.length_cons, List.length_map] at hlen hlen'
    omega
  · have hbase := binsFor_old t hlog (s := s) (by rw [hself]; exact hnew)
    rw [increments_present_iff t.arranged.nodup hmem (by rw [hbase]) (t'.present_eq htype'), hbase]
    constructor
    · intro hsmall
      have hno : 2 ^ 31 ∉ bs := by
        intro hin
        rcases hsmall with ⟨-, hmin⟩ | ⟨hgt, -⟩
        · have hle := hmin ⟨2 ^ 31, cnt (2 ^ 31)⟩ (List.mem_map.mpr ⟨_, hin, rfl⟩)
            (by rw [h31])
          have hlt : 2 ^ 31 < maxUint32 := by decide
          exact absurd hle (Nat.not_le.mpr hlt)
        · rw [h31] at hgt
          exact absurd hgt (by decide)
      have hfull : ¬ Table.Room h bs true s.alloc := fun hroom => hnew ⟨hno, hroom⟩
      refine ⟨fun _ => ⟨hno, hfull⟩, fun _ _ hfirst => ?_⟩
      obtain ⟨b, rest, heq, hne, hle, -⟩ := hfirst
      obtain ⟨x, tail, rfl, rfl, rfl⟩ := List.map_eq_cons_iff.mp heq
      have hmax := honly hno x (List.mem_cons_self ..) (by rw [← h31]; exact hle)
      rw [t.arranged.tail_nil hmax] at hne
      exact hne rfl
    · intro hok
      obtain ⟨hno, -⟩ := hok.1 h31
      have hle : 2 ^ 31 ≤ maxUint32 := by decide
      refine Or.inl ⟨by rw [h31]; exact hle, ?_⟩
      intro x hx hle
      obtain ⟨u, hu, rfl⟩ := List.mem_map.mp hx
      rw [honly hno u hu (by rw [← h31]; exact hle)]

theorem binsFor_perm (t : Table h bs cnt) (hlog : h.hType = .log2)
    (hroom : log2Bound s.value ∈ bs ∨ Table.Room h bs true s.alloc) :
    (binsFor h s).Perm ((Table.putBound (log2Bound s.value) bs).map fun u => ⟨u, cnt u⟩) := by
  rw [Table.putBound]
  split
  next hmem =>
    rw [binsFor_old t hlog fun hno => hno.1 hmem]
  next hnew =>
    have hp := (insertBound_perm (log2Bound s.value) bs).map fun u => (⟨u, cnt u⟩ : Bin)
    rw [List.map_cons, t.fresh _ hnew] at hp
    rw [binsFor_new t hlog hnew (hroom.resolve_left hnew)]
    exact hp.symm

theorem recordsRight_log2_iff (hh : Log2Table h) : RecordsRight h s ↔ RecordOk h s := by
  obtain ⟨hlog, bs, cnt, t, hpow⟩ := hh
  by_cases h31 : s.value = 2 ^ 31
  · exact recordsRight_half_iff t hlog hpow h31
  · have hub := binLog2UpperBound_eq h31
    rw [recordOk_iff t hlog]
    by_cases hroom : log2Bound s.value ∈ bs ∨ Table.Room h bs true s.alloc
    · -- the bin of the value is there or is made
      obtain ⟨h', hrec, htype', hsum, hcase⟩ := record_table t hlog s
      rw [hub] at hcase
      obtain ⟨-, t'⟩ := hcase.resolve_right fun hno => hroom.elim hno.1.1 hno.1.2
      have hput : log2Bound s.value ∈ Table.putBound (log2Bound s.value) bs :=
        mem_putBound.mpr (Or.inl rfl)
      have hbase := binsFor_perm t hlog hroom
      refine iff_of_true ?_ ⟨fun h => absurd h h31, fun hno hfull => absurd hroom (by tauto)⟩
      rw [increments_iff hrec hsum,
        increments_present_iff t'.arranged.nodup hput hbase (t'.present_eq htype')]
      by_cases hv : s.value ≤ maxUint32
      · refine Or.inl ⟨le_log2Bound hv, ?_⟩
        intro x hx hle
        obtain ⟨u, hu, rfl⟩ := List.mem_map.mp (hbase.mem_iff.mp hx)
        rcases mem_putBound.mp hu with rfl | hu
        · exact Nat.le_refl _
        · exact log2Bound_le (hpow u hu) hle
      · refine Or.inr ⟨by omega, ?_⟩
        show log2Bound s.value = maxUint32
        rw [log2Bound, if_neg (by rw [maxUint32] at hv; omega)]
    · have hno : log2Bound s.value ∉ bs := fun h => hroom (Or.inl h)
      have hfull : ¬ Table.Room h bs true s.alloc := fun h => hroom (Or.inr h)
      obtain ⟨h', u, hrec, htype', hsum, hu, t'⟩ :=
        t.record_full hlog s (by rw [hub]; exact hno) hfull
      have hbase := binsFor_old t hlog (s := s) fun h => hfull h.2
      rw [hub] at hu
      rw [increments_iff hrec hsum, increments_present_iff t.arranged.nodup
        (List.mem_of_getElem? hu) (by rw [hbase]) (t'.present_eq htype'), hbase,
        closest_iff t.arranged hpow hno hu]
      constructor
      · intro hright
        exact ⟨fun h => absurd h h31, fun _ _ => hright⟩
      · intro hok
        exact hok.2 hno hfull

end Log2

/-! ### Records of a CUSTOM histogram -/

/-- As it was defined with increasing bounds. -/
structure CustomTable (h : Histogram) : Prop where
  type : h.hType = .custom
  length : h.bins.length = h.nBins
  sorted : h.bins.Pairwise fun a b => a.upperBound ≤ b.upperBound
  last : ∃ init b, h.bins = init ++ [b] ∧ b.upperBound = maxUint32

/-- The scan ends at the first bound that is not below the value, or at the last bin. -/
theorem customScan_spec (bins : List Bin) (n k : ℕ) :
    ∀ (i : ℕ) (b : Option ℕ), i + (k + 1) = bins.length →
      ∃ j, ∃ hj : j < bins.length, customScan bins n (k + 1) i b = some j ∧ i ≤ j ∧
        (∀ x, i ≤ x → (hx : x < j) → bins[x].upperBound < n) ∧
        (n ≤ bins[j].upperBound ∨ j + 1 = bins.length) := by
  induction k with
  | zero =>
    intro i b hlen
    have hi : i < bins.length := by omega
    refine ⟨i, hi, ?_, Nat.le_refl _, fun x hx hx' => absurd hx (by omega), Or.inr hlen⟩
    rw [customScan, List.getElem?_eq_getElem hi]
    simp only
    split
    · rfl
    · rfl
  | succ k ih =>
    intro i b hlen
    have hi : i < bins.length := by omega
    by_cases hn : n ≤ bins[i].upperBound
    · refine ⟨i, hi, ?_, Nat.le_refl _, fun x hx hx' => absurd hx (by omega), Or.inl hn⟩
      rw [customScan, List.getElem?_eq_getElem hi]
      simp only [if_pos hn]
    · obtain ⟨j, hj, hscan, hle, hbelow, hend⟩ := ih (i + 1) (some i) (by omega)
      refine ⟨j, hj, ?_, by omega, ?_, hend⟩
      · rw [customScan, List.getElem?_eq_getElem hi]
        simp only [if_neg hn]
        exact hscan
      · intro x hx hx'
        rcases Nat.lt_or_ge i x with hlt | hge
        · exact hbelow x hlt hx'
        · have hxi : x = i := by omega
          subst hxi
          omega

theorem CustomTable.record {h : Histogram} (t : CustomTable h) (s : Sample) :
    ∃ h' j, ∃ hj : j < h.bins.length, histogramRecord h s.value s.alloc = some h' ∧
      h'.sum = (h.sum + s.value) % 2 ^ 64 ∧ h'.hType = .custom ∧ h'.nBins = h.nBins ∧
      h'.bins = h.bins.set j ⟨h.bins[j].upperBound, (h.bins[j].count + 1) % 2 ^ 32⟩ ∧
      Smallest h.bins s.value h.bins[j] := by
  obtain ⟨htype, hlen, hsorted, init, last, hbins, hlast⟩ := t
  have hpos : 0 < h.bins.length := by rw [hbins]; simp
  obtain ⟨k, hk⟩ := Nat.exists_eq_succ_of_ne_zero (Nat.ne_of_gt hpos)
  obtain ⟨j, hj, hscan, -, hbelow, hend⟩ := customScan_spec h.bins s.value k 0 none (by omega)
  have hrec : histogramRecord h s.value s.alloc = some { h with
      sum := (h.sum + s.value) % 2 ^ 64,
      bins := h.bins.set j ⟨h.bins[j].upperBound, (h.bins[j].count + 1) % 2 ^ 32⟩ } := by
    have hn : h.nBins = k + 1 := by omega
    simp only [histogramRecord, recordBin, htype, histogramCustomBin, hn, hscan, Option.map_some,
      addCount, List.getElem?_eq_getElem hj]
  refine ⟨_, j, hj, hrec, rfl, htype, rfl, rfl, ?_⟩
  by_cases hle : s.value ≤ h.bins[j].upperBound
  · refine Or.inl ⟨hle, ?_⟩
    intro x hx hxle
    obtain ⟨m, hm, rfl⟩ := List.getElem_of_mem hx
    rcases Nat.lt_trichotomy m j with hlt | rfl | hgt
    · have hless := hbelow m (Nat.zero_le m) hlt
      omega
    · exact Nat.le_refl _
    · exact List.pairwise_iff_getElem.mp hsorted j m hj hm hgt
  · have hj' : j = init.length := by
      have hl := congrArg List.length hbins
      rw [List.length_append, List.length_singleton] at hl
      omega
    have hget : h.bins[j] = last := by
      simp only [hbins, hj']
      simp
    rw [hget, hlast] at hle
    exact Or.inr ⟨by omega, by rw [hget, hlast]⟩

theorem CustomTable.present_eq {h : Histogram} (t : CustomTable h) : present h = h.bins := by
  rw [present, t.type]

theorem CustomTable.binsFor_eq {h : Histogram} (t : CustomTable h) (s : Sample) :
    binsFor h s = h.bins := by
  have hne : ¬ h.hType = .log2 := by
    rw [t.type]
    decide
  rw [binsFor, if_neg fun hall => hne hall.1, t.present_eq]

theorem CustomTable.set {h h' : Histogram} (t : CustomTable h) {j : ℕ} (hj : j < h.bins.length)
    (htype : h'.hType = .custom) (hn : h'.nBins = h.nBins) (c : ℕ)
    (hbins : h'.bins = h.bins.set j ⟨h.bins[j].upperBound, c⟩) : CustomTable h' := by
  -- the bounds are as before
  have hbounds : h'.bins.map (·.upperBound) = h.bins.map (·.upperBound) := by
    rw [hbins, List.map_set]
    have hj' : j < (h.bins.map (·.upperBound)).length := by
      rw [List.length_map]
      exact hj
    have hself := List.set_getElem_self hj'
    rwa [List.getElem_map] at hself
  obtain ⟨-, hlen, hsorted, init, last, hinit, hlast⟩ := t
  refine ⟨htype, ?_, ?_, ?_⟩
  · rw [hbins, List.length_set, hn]
    exact hlen
  · rw [← List.pairwise_map (f := fun b : Bin => b.upperBound), hbounds, List.pairwise_map]
    exact hsorted
  · have hne : h'.bins ≠ [] := by
      intro hnil
      have hl := congrArg List.length hbounds
      rw [hnil, hinit] at hl
      simp at hl
    refine ⟨h'.bins.dropLast, h'.bins.getLast hne, (List.dropLast_concat_getLast hne).symm, ?_⟩
    have hb := hbounds
    rw [← List.dropLast_concat_getLast hne, hinit, List.map_append, List.map_append] at hb
    have htail := (List.append_inj' hb rfl).2
    rw [← hlast]
    simpa using htail

/-! ### Totals -/

theorem total_perm {as bs : List Bin} (h : as.Perm bs) : total as = total bs := by
  rw [total, total, (h.map _).sum_eq]

theorem total_cons (b : Bin) (bins : List Bin) : total (b :: bins) = b.count + total bins := rfl

theorem total_bump {bs : List ℕ} (hnd : bs.Nodup) {u : ℕ} (hu : u ∈ bs) (cnt : ℕ → ℕ) :
    total (bs.map fun u' => ⟨u', bump cnt u 1 u'⟩) % 2 ^ 32 =
      (total (bs.map fun u => ⟨u, cnt u⟩) + 1) % 2 ^ 32 := by
  obtain ⟨rest, hold, hnew⟩ := bump_perm hnd hu cnt
  rw [total_perm hold, total_perm hnew, total_cons, total_cons]
  simp only
  omega

/-- LOG2, or CUSTOM with increasing bounds. -/
def Recorded (h : Histogram) : Prop := Log2Table h ∨ CustomTable h

theorem recordStep_log2_total {h : Histogram} (hh : Log2Table h) (s : Sample) :
    total (present (recordStep h s).1) % 2 ^ 32 = (total (present h) + 1) % 2 ^ 32 := by
  obtain ⟨hlog, bs, cnt, t, -⟩ := hh
  obtain ⟨h', hrec, htype', -, hcase⟩ := record_table t hlog s
  rw [recordStep, hrec, t.present_eq hlog]
  simp only
  rcases hcase with ⟨-, t'⟩ | ⟨-, u, hu, t'⟩
  · rw [t'.present_eq htype', total_bump t'.arranged.nodup (mem_putBound.mpr (Or.inl rfl))]
    congr 2
    rw [Table.putBound]
    split
    next => rfl
    next hnew =>
      rw [total_perm ((insertBound_perm _ bs).map fun u => (⟨u, cnt u⟩ : Bin)), List.map_cons,
        total_cons, t.fresh _ hnew, Nat.zero_add]
  · rw [t'.present_eq htype', total_bump t.arranged.nodup hu]

theorem CustomTable.step {h : Histogram} (t : CustomTable h) (s : Sample) :
    CustomTable (recordStep h s).1 ∧ RecordsRight h s ∧
      total (present (recordStep h s).1) % 2 ^ 32 = (total (present h) + 1) % 2 ^ 32 := by
  obtain ⟨h', j, hj, hrec, hsum, htype', hn, hbins, hsmall⟩ := t.record s
  have t' : CustomTable h' := t.set hj htype' hn _ hbins
  have hstep : recordStep h s = (h', true) := by rw [recordStep, hrec]
  have hold : h.bins.Perm (h.bins[j] :: h.bins.eraseIdx j) :=
    (List.getElem_cons_eraseIdx_perm hj).symm
  have hnew : h'.bins.Perm (⟨h.bins[j].upperBound, (h.bins[j].count + 1) % 2 ^ 32⟩ ::
      h.bins.eraseIdx j) := by
    rw [hbins]
    exact List.set_perm_cons_eraseIdx hj _
  rw [hstep, t.present_eq, t'.present_eq]
  refine ⟨t', ⟨h', hrec, hsum, h.bins[j], h.bins.eraseIdx j, ?_, ?_, ?_⟩, ?_⟩
  · rw [t.binsFor_eq]
    exact hold
  · rw [t'.present_eq]
    exact hnew
  · rw [t.binsFor_eq]
    exact hsmall
  · rw [total_perm hold, total_perm hnew, total_cons, total_cons]
    simp only
    omega

theorem Recorded.step {h : Histogram} (hh : Recorded h) (s : Sample) :
    Recorded (recordStep h s).1 ∧
      total (present (recordStep h s).1) % 2 ^ 32 = (total (present h) + 1) % 2 ^ 32 := by
  rcases hh with hh | hh
  · exact ⟨Or.inl (recordStep_table hh s).1, recordStep_log2_total hh s⟩
  · exact ⟨Or.inr (hh.step s).1, (hh.step s).2.2⟩

theorem Recorded.right_iff {h : Histogram} (hh : Recorded h) (s : Sample) :
    RecordsRight h s ↔ RecordOk h s := by
  rcases hh with hh | hh
  · exact recordsRight_log2_iff hh
  · refine iff_of_true (hh.step s).2.1 ?_
    intro hlog
    rw [hh.type] at hlog
    cases hlog

theorem total_run (samples : List Sample) :
    ∀ {h : Histogram}, Recorded h →
      total (present (exec recordStep h samples).1) % 2 ^ 32 =
        (total (present h) + samples.length) % 2 ^ 32 := by
  induction samples with
  | nil => intro h _; rfl
  | cons s samples ih =>
    intro h hh
    obtain ⟨hstep, htotal⟩ := hh.step s
    rw [exec_cons, ih hstep, List.length_cons]
    omega

/-! ### Histograms as they are defined -/

/-- Bounds that `ngx_wa_metrics_define` accepts, in order. -/
def Ascending (bins : Option (List ℕ)) : Prop :=
  ∀ bs, bins = some bs → bs.length < binsMax ∧ bs.Pairwise (· ≤ ·) ∧ ∀ b ∈ bs, b ≤ maxUint32

theorem newHistogram_recorded {bins : Option (List ℕ)} (hasc : Ascending bins) {h : Histogram}
    (hnew : newHistogram bins = some h) : Recorded h ∧ total (present h) = 0 := by
  cases bins with
  | none =>
    rw [newHistogram] at hnew
    rw [← Option.some.inj hnew]
    have ht := newLog2_table
    exact ⟨Or.inl ⟨rfl, _, _, ht, by simp⟩, by rfl⟩
  | some bs =>
    obtain ⟨hlen, hsorted, hmax⟩ := hasc bs rfl
    rw [newHistogram, if_neg (by omega)] at hnew
    rw [← Option.some.inj hnew]
    refine ⟨Or.inr ⟨rfl, by simp, ?_, bs.map (⟨·, 0⟩), ⟨maxUint32, 0⟩, rfl, rfl⟩, ?_⟩
    · simp only [List.pairwise_append, List.pairwise_map, List.pairwise_singleton, true_and]
      refine ⟨hsorted, ?_⟩
      intro b hb c hc
      obtain ⟨u, hu, rfl⟩ := List.mem_map.mp hb
      rw [List.mem_singleton.mp hc]
      exact hmax u hu
    · simp [present, total, List.map_map, Function.comp_def]

/-- In every run each record goes to the bin of its value exactly when none of them meets one
of the two defects; the counts add up to the number of samples in every run. -/
theorem records_right_iff (bins : Option (List ℕ)) (hasc : Ascending bins) (h : Histogram)
    (hnew : newHistogram bins = some h) (samples : List Sample) :
    (Meets recordStep RecordsRight h samples ↔ Meets recordStep RecordOk h samples) ∧
      total (present (exec recordStep h samples).1) % 2 ^ 32 = samples.length % 2 ^ 32 := by
  obtain ⟨hrec, hzero⟩ := newHistogram_recorded hasc hnew
  refine ⟨meets_congr recordStep (P := Recorded) (fun _ s hh => hh.right_iff s)
    (fun _ s hh => (hh.step s).1) samples h hrec, ?_⟩
  rw [total_run samples hrec, hzero, Nat.zero_add]

/-- A sample below the first bound, one between two bounds and one above 2^32 - 1. -/
theorem records_right_custom :
    (Meets recordStep RecordsRight ⟨.custom, 3, 0, [⟨2, 0⟩, ⟨5, 0⟩, ⟨maxUint32, 0⟩]⟩
          [⟨1, true⟩, ⟨3, true⟩, ⟨2 ^ 40, true⟩] ↔
        Meets recordStep RecordOk ⟨.custom, 3, 0, [⟨2, 0⟩, ⟨5, 0⟩, ⟨maxUint32, 0⟩]⟩
          [⟨1, true⟩, ⟨3, true⟩, ⟨2 ^ 40, true⟩]) ∧
      total (present (exec recordStep ⟨.custom, 3, 0, [⟨2, 0⟩, ⟨5, 0⟩, ⟨maxUint32, 0⟩]⟩
        [⟨1, true⟩, ⟨3, true⟩, ⟨2 ^ 40, true⟩]).1) % 2 ^ 32 = 3 % 2 ^ 32 := by
  refine records_right_iff (some [2, 5]) ?_ _ rfl [⟨1, true⟩, ⟨3, true⟩, ⟨2 ^ 40, true⟩]
  intro bs hbs
  rw [← Option.some.inj hbs]
  exact ⟨by decide, by decide, by decide⟩

/-- The bins of 2, 4, 8 and 16 are there and no memory for another one: 1 is counted in the
bin of 4. -/
theorem full_histogram_wrong :
    ¬ ∀ (bins : Option (List ℕ)) (h : Histogram) (samples : List Sample), Ascending bins →
      newHistogram bins = some h → Meets recordStep RecordsRight h samples := by
  intro hall
  have hasc : Ascending none := fun bs hbs => by cases hbs
  obtain ⟨-, -, -, -, hright, -⟩ := hall none newLog2
    [⟨2, true⟩, ⟨4, true⟩, ⟨8, true⟩, ⟨16, true⟩, ⟨1, false⟩] hasc rfl
  have hnew : Log2Table newLog2 := ⟨rfl, _, _, newLog2_table, by simp⟩
  have h1 := (recordStep_table hnew ⟨2, true⟩).1
  have h2 := (recordStep_table h1 ⟨4, true⟩).1
  have h3 := (recordStep_table h2 ⟨8, true⟩).1
  have h4 := (recordStep_table h3 ⟨16, true⟩).1
  have hok := (recordsRight_log2_iff h4).mp hright (by decide)
  refine hok.2 (by decide) (by decide) ?_
  refine ⟨⟨2, 1⟩, [⟨4, 1⟩, ⟨8, 1⟩, ⟨16, 1⟩, ⟨maxUint32, 0⟩], by decide, by decide, by decide, ?_⟩
  decide

end NgxWasm.Metrics
