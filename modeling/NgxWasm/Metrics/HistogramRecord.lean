import NgxWasm.Metrics.BinTable
import NgxWasm.Lib.Links
import NgxWasm.Lib.Run

/-!
# Recording into a LOG2 histogram

Any values in any order, with any answers of the slab to `histogram_grow`. The bins
stay in order as long as no new bound is smaller than the first one.
-/

namespace NgxWasm.Metrics

open NgxWasm.Lib.Links NgxWasm.Lib.Run

structure Sample where
  value : ℕ
  /-- The slab has memory, should the histogram grow. -/
  alloc : Bool
  deriving Repr, DecidableEq

/-- The answer is `false` where a bin outside of `bins` was accessed. -/
def recordStep (h : Histogram) (s : Sample) : Histogram × Bool :=
  match histogramRecord h s.value s.alloc with
  | none => (h, false)
  | some h' => (h', true)

/-- As `ngx_wa_metrics_histogram_add_locked` leaves it. -/
def newLog2 : Histogram :=
  ⟨.log2, binsInit, 0, ⟨maxUint32, 0⟩ :: List.replicate (binsInit - 1) ⟨0, 0⟩⟩

/-- The bins up to and including the first one with the largest bound. -/
def usedBins (bins : List Bin) : List Bin := upto (fun b => b.upperBound == maxUint32) bins

def usedBounds (bins : List Bin) : List ℕ := (usedBins bins).map (·.upperBound)

structure WellFormed (h : Histogram) : Prop where
  increasing : (usedBounds h.bins).Pairwise (· < ·)
  powers : ∀ u ∈ usedBounds h.bins, u ≠ maxUint32 → ∃ k, u = 2 ^ k
  largest : h.bins.countP (fun b => b.upperBound == maxUint32) = 1
  allocated : h.bins.length = h.nBins
  limit : h.nBins ≤ binsMax

/-- The value does not make a bin for a bound below the first one. -/
def NotBelowFirst (h : Histogram) (s : Sample) : Prop :=
  (usedBounds h.bins).headD maxUint32 = maxUint32 ∨
    (usedBounds h.bins).headD maxUint32 ≤ binLog2UpperBound s.value ∨
    (usedBounds h.bins).length = h.nBins ∧ (h.nBins = binsMax ∨ s.alloc = false)

/-! ### Tables -/

theorem Table.used {h : Histogram} {bs : List ℕ} {cnt : ℕ → ℕ} (t : Table h bs cnt) :
    usedBins h.bins = bs.map fun u => ⟨u, cnt u⟩ := by
  obtain ⟨init, rfl, hlt⟩ := t.arranged.ends
  have hinit : ∀ b ∈ init.map (fun u => (⟨u, cnt u⟩ : Bin)), (b.upperBound == maxUint32) = false := by
    intro b hb
    obtain ⟨u, hu, rfl⟩ := List.mem_map.mp hb
    exact beq_false_of_ne (Nat.ne_of_lt (hlt u hu))
  rw [usedBins, t.bins, binsOf, List.map_append, List.append_assoc, upto_append hinit]
  rfl

theorem Table.bounds {h : Histogram} {bs : List ℕ} {cnt : ℕ → ℕ} (t : Table h bs cnt) :
    usedBounds h.bins = bs := by
  rw [usedBounds, t.used, List.map_map]
  exact List.map_id _

theorem Table.largest {h : Histogram} {bs : List ℕ} {cnt : ℕ → ℕ} (t : Table h bs cnt) :
    h.bins.countP (fun b => b.upperBound == maxUint32) = 1 := by
  have hfree : ∀ n, (List.replicate n (⟨0, 0⟩ : Bin)).countP
      (fun b => b.upperBound == maxUint32) = 0 := by
    intro n
    rw [List.countP_replicate]
    rfl
  have hcount : (bs.map fun u => (⟨u, cnt u⟩ : Bin)).countP (fun b => b.upperBound == maxUint32) =
      bs.count maxUint32 := by
    rw [List.countP_map]
    rfl
  rw [t.bins, binsOf, List.countP_append, hfree, hcount,
    List.count_eq_one_of_mem t.arranged.nodup t.arranged.max_mem]

theorem newLog2_table : Table newLog2 [maxUint32] fun _ => 0 where
  bins := rfl
  room := by decide
  limit := by decide
  arranged := .empty
  fresh := fun _ _ => rfl

theorem Arranged.sorted_insert_iff {bs : List ℕ} {ub : ℕ} (h : Arranged bs)
    (hs : bs.Pairwise (· < ·)) (hlt : ub < maxUint32) (hn : ub ∉ bs) :
    (insertBound ub bs).Pairwise (· < ·) ↔
      bs.headD maxUint32 = maxUint32 ∨ bs.headD maxUint32 ≤ ub := by
  cases h with
  | empty =>
    refine iff_of_true ?_ (.inl rfl)
    exact List.pairwise_cons.mpr ⟨fun x hx => List.mem_singleton.mp hx ▸ hlt,
      List.pairwise_singleton ..⟩
  | cons b init hfinite hnew hsorted =>
    obtain ⟨hne, hrest⟩ := List.ne_and_not_mem_of_not_mem_cons hn
    have hnil : init ++ [maxUint32] ≠ [] := by simp
    rw [insertBound_cons ub b hnil, List.pairwise_cons, List.headD_cons]
    constructor
    · intro h
      exact .inr (Nat.le_of_lt (h.1 ub ((List.mem_orderedInsert _).mpr (.inl rfl))))
    · intro h
      refine ⟨?_, orderedInsert_sorted hsorted hrest⟩
      intro x hx
      rcases (List.mem_orderedInsert _).mp hx with rfl | hx
      · have hle := h.resolve_left (Nat.ne_of_lt hfinite)
        omega
      · exact (List.pairwise_cons.mp hs).1 x hx

/-! ### One record -/

/-- A LOG2 histogram that stands for a table of powers of two. -/
def Log2Table (h : Histogram) : Prop :=
  h.hType = .log2 ∧ ∃ bs cnt, Table h bs cnt ∧ ∀ u ∈ bs, u = maxUint32 ∨ ∃ k ≤ 31, u = 2 ^ k

theorem Table.withSum {h : Histogram} {bs : List ℕ} {cnt : ℕ → ℕ} (t : Table h bs cnt) (sum : ℕ) :
    Table { h with sum } bs cnt := ⟨t.bins, t.room, t.limit, t.arranged, t.fresh⟩

theorem mem_putBound {ub u : ℕ} {bs : List ℕ} : u ∈ Table.putBound ub bs ↔ u = ub ∨ u ∈ bs := by
  rw [Table.putBound]
  split
  next hmem =>
    constructor
    · exact .inr
    · rintro (rfl | h)
      · exact hmem
      · exact h
  next => exact mem_insertBound

/-- What one record does to the table. -/
theorem record_table {h : Histogram} {bs : List ℕ} {cnt : ℕ → ℕ} (t : Table h bs cnt)
    (hlog : h.hType = .log2) (s : Sample) :
    ∃ h', histogramRecord h s.value s.alloc = some h' ∧ h'.hType = .log2 ∧
      h'.sum = (h.sum + s.value) % 2 ^ 64 ∧
      ((binLog2UpperBound s.value ∈ bs ∨ Table.Room h bs true s.alloc) ∧
          Table h' (Table.putBound (binLog2UpperBound s.value) bs)
            (bump cnt (binLog2UpperBound s.value) 1) ∨
        (binLog2UpperBound s.value ∉ bs ∧ ¬ Table.Room h bs true s.alloc) ∧
          ∃ u ∈ bs, Table h' bs (bump cnt u 1)) := by
  obtain ⟨h₁, i, h', hbin, hadd, htype, hsum, -, hcase⟩ :=
    (t.withSum ((h.sum + s.value) % 2 ^ 64)).put s.value 1 true s.alloc
  refine ⟨h', ?_, htype.trans hlog, hsum, hcase⟩
  simp only [histogramRecord, recordBin, hlog] at hbin ⊢
  rw [hbin]
  exact hadd

theorem binLog2UpperBound_power (n : ℕ) :
    binLog2UpperBound n = maxUint32 ∨ ∃ k ≤ 31, binLog2UpperBound n = 2 ^ k := by
  rcases binLog2UpperBound_spec n with ⟨-, h⟩ | ⟨-, k, hk, h, -, -⟩
  · exact .inl h
  · exact .inr ⟨k, hk, h⟩

theorem recordStep_table {h : Histogram} (hh : Log2Table h) (s : Sample) :
    Log2Table (recordStep h s).1 ∧ (recordStep h s).2 = true := by
  obtain ⟨hlog, bs, cnt, t, hpow⟩ := hh
  obtain ⟨h', hrec, htype, -, hcase⟩ := record_table t hlog s
  rw [recordStep, hrec]
  refine ⟨⟨htype, ?_⟩, rfl⟩
  rcases hcase with ⟨-, t'⟩ | ⟨-, u, -, t'⟩
  · refine ⟨_, _, t', ?_⟩
    intro v hv
    rcases mem_putBound.mp hv with rfl | hv
    · exact binLog2UpperBound_power s.value
    · exact hpow v hv
  · exact ⟨_, _, t', hpow⟩

theorem Log2Table.wellFormed_iff {h : Histogram} (hh : Log2Table h) :
    WellFormed h ↔ (usedBounds h.bins).Pairwise (· < ·) := by
  constructor
  · intro hw
    exact hw.increasing
  · intro hs
    obtain ⟨-, bs, cnt, t, hpow⟩ := hh
    refine ⟨hs, ?_, t.largest, t.length, t.limit⟩
    intro u hu hne
    rw [t.bounds] at hu
    obtain ⟨k, -, hk⟩ := (hpow u hu).resolve_left hne
    exact ⟨k, hk⟩

/-- A record keeps the order exactly when it makes no bin below the first. -/
theorem recordStep_sorted_iff {h : Histogram} (hh : Log2Table h)
    (hs : (usedBounds h.bins).Pairwise (· < ·)) (s : Sample) :
    (usedBounds (recordStep h s).1.bins).Pairwise (· < ·) ↔ NotBelowFirst h s := by
  obtain ⟨hlog, bs, cnt, t, hpow⟩ := hh
  obtain ⟨h', hrec, -, -, hcase⟩ := record_table t hlog s
  rw [recordStep, hrec, NotBelowFirst]
  rw [t.bounds] at hs ⊢
  have hfull : ¬ Table.Room h bs true s.alloc →
      bs.length = h.nBins ∧ (h.nBins = binsMax ∨ s.alloc = false) := by
    intro hno
    rw [Table.Room] at hno
    push Not at hno
    refine ⟨Nat.le_antisymm t.room hno.1, ?_⟩
    cases halloc : s.alloc with
    | false => exact .inr rfl
    | true => exact .inl (hno.2 rfl halloc)
  rcases hcase with ⟨hroom, t'⟩ | ⟨⟨-, hno⟩, u, -, t'⟩
  · rw [t'.bounds, Table.putBound]
    split
    next hmem =>
      refine iff_of_true hs (.inr (.inl ?_))
      cases bs with
      | nil => exact absurd hmem List.not_mem_nil
      | cons b bs =>
        rcases List.mem_cons.mp hmem with heq | hmem
        · exact Nat.le_of_eq heq.symm
        · exact Nat.le_of_lt ((List.pairwise_cons.mp hs).1 _ hmem)
    next hnew =>
      rw [t.arranged.sorted_insert_iff hs (t.new_lt hnew) hnew]
      have hroom' := hroom.resolve_left hnew
      constructor
      · rintro (h | h)
        · exact .inl h
        · exact .inr (.inl h)
      · rintro (h | h | ⟨hlen, hlimit⟩)
        · exact .inl h
        · exact .inr h
        · rcases hroom' with hlt | ⟨-, halloc, hne⟩
          · exact absurd hlen (Nat.ne_of_lt hlt)
          · rcases hlimit with hlimit | hlimit
            · exact absurd hlimit hne
            · rw [halloc] at hlimit
              cases hlimit
  · rw [t'.bounds]
    exact iff_of_true hs (.inr (.inr (hfull hno)))

/-- In every run, no bin outside of the histogram is accessed, and its bins are well formed
after every record exactly when no record makes a bin below the first. -/
theorem record_wellFormed_iff (samples : List Sample) :
    ((∀ k, WellFormed (exec recordStep newLog2 (samples.take k)).1) ∧
        ∀ inside ∈ (exec recordStep newLog2 samples).2, inside = true) ↔
      Meets recordStep NotBelowFirst newLog2 samples := by
  have hnew : Log2Table newLog2 := ⟨rfl, _, _, newLog2_table, by simp⟩
  have hreach : ∀ is : List Sample, Log2Table (exec recordStep newLog2 is).1 := by
    intro is
    refine exec_invariant recordStep (fun _ _ => True) Log2Table ?_ is newLog2 hnew
      (meets_of_forall recordStep (fun _ => True) is newLog2 fun _ _ => trivial)
    intro h s hh _
    exact (recordStep_table hh s).1
  have hinside : ∀ inside ∈ (exec recordStep newLog2 samples).2, inside = true := by
    rw [forall_outputs_iff]
    have hall : ∀ (is : List Sample) (h : Histogram), Log2Table h →
        Meets recordStep (fun h s => (recordStep h s).2 = true) h is := by
      intro is
      induction is with
      | nil => intro h _; trivial
      | cons s is ih =>
        intro h hh
        exact ⟨(recordStep_table hh s).2, ih _ (recordStep_table hh s).1⟩
    exact hall samples newLog2 hnew
  rw [and_iff_left hinside]
  rw [forall_congr' fun k => (hreach (samples.take k)).wellFormed_iff]
  have hsorted : (usedBounds newLog2.bins).Pairwise (· < ·) := List.pairwise_singleton ..
  exact prefixes_iff recordStep (P := fun h => (usedBounds h.bins).Pairwise (· < ·))
    (fun h s hh _ _ => (recordStep_table hh s).1) (fun h s hh hs => recordStep_sorted_iff hh hs s)
    samples newLog2 hnew hsorted

/-- 100 makes the bin of 128, then 1 makes the bin behind it. -/
theorem descending_unsorted :
    usedBounds (exec recordStep newLog2 [⟨100, true⟩, ⟨1, true⟩]).1.bins =
        [128, 1, maxUint32] ∧
      ¬ WellFormed (exec recordStep newLog2 [⟨100, true⟩, ⟨1, true⟩]).1 := by
  have hbounds : usedBounds (exec recordStep newLog2 [⟨100, true⟩, ⟨1, true⟩]).1.bins =
      [128, 1, maxUint32] := by decide
  refine ⟨hbounds, ?_⟩
  intro hw
  have hs := hw.increasing
  rw [hbounds] at hs
  exact absurd hs (by decide)

end NgxWasm.Metrics
