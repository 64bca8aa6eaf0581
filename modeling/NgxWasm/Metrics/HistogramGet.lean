import NgxWasm.Metrics.HistogramMerge

/-!
# The histogram of all workers

Each worker records into its own slot and a merge reads all of them. The result shows
the bounds of the slots in order with the sums of their counts as long as the first
finite bound that is met is the least one, no bin stands for 2^31 and no sum of counts
is cut to 32 bits.
-/

namespace NgxWasm.Metrics

open NgxWasm.Lib.Links NgxWasm.Lib.Run

/-- A sample that a worker records. -/
structure Event where
  slot : ℕ
  sample : Sample
  deriving Repr, DecidableEq

def recordSlot (slots : List Histogram) (e : Event) : List Histogram × Bool :=
  match slots[e.slot]? with
  | none => (slots, false)
  | some h => (slots.set e.slot (recordStep h e.sample).1, (recordStep h e.sample).2)

/-- The slots of a metric after the recordings. -/
def slotsAfter (workers : ℕ) (events : List Event) : List Histogram :=
  (exec recordSlot (List.replicate workers newLog2) events).1

/-- The worker's histogram has a bin for the bound, or a free one, or grows. -/
def Placed (slots : List Histogram) (e : Event) : Prop :=
  ∀ h, slots[e.slot]? = some h →
    binLog2UpperBound e.sample.value ∈ usedBounds h.bins ∨
      Table.Room h (usedBounds h.bins) true e.sample.alloc

/-- The distinct bounds of the slots in increasing order. -/
def allBounds (slots : List Histogram) : List ℕ :=
  (insert maxUint32 ((binStream slots).map (·.upperBound)).toFinset).sort (· ≤ ·)

/-- One bin for each bound, with the counts of all slots, and the sum of all samples. -/
structure Merged (slots : List Histogram) (events : List Event) (out : Histogram) : Prop where
  bins : usedBins out.bins = (allBounds slots).map fun u => ⟨u, countAt id (binStream slots) u⟩
  sum : out.sum = (events.map (·.sample.value)).sum % 2 ^ 64

structure MergesInOrder (slots : List Histogram) : Prop where
  fixed : ∀ b ∈ binStream slots, b.upperBound ≠ 2 ^ 31
  first : ∀ b ∈ binStream slots,
    firstFinite ((binStream slots).map (·.upperBound)) ≤ b.upperBound
  counts : ∀ u, countAt id (binStream slots) u < 2 ^ 32

/-- The first finite bound that a merge of the slots puts. -/
def firstPut (slots : List Histogram) : ℕ :=
  firstFinite ((binStream slots).map fun b => binLog2UpperBound b.upperBound)

/-! ### Bounds that are put again -/

theorem binLog2UpperBound_max : binLog2UpperBound maxUint32 = maxUint32 := by decide

/-- The smallest power of two not below a power of two is that power. -/
theorem binLog2UpperBound_pow {k : ℕ} (hk : k ≤ 30) : binLog2UpperBound (2 ^ k) = 2 ^ k := by
  have hle : 2 ^ k ≤ 2 ^ 30 := Nat.pow_le_pow_right (by omega) hk
  rcases binLog2UpperBound_spec (2 ^ k) with ⟨hlarge, -⟩ | ⟨-, m, -, hbound, hge, hlt⟩
  · omega
  · rw [hbound]
    have hkm : k ≤ m := (Nat.pow_le_pow_iff_right (by omega)).mp hge
    rcases hlt with rfl | hlt
    · congr 1
      omega
    · have hmk : 2 ^ m < 2 ^ (k + 1) := by
        rw [Nat.pow_succ]
        omega
      have hmk' : m < k + 1 := (Nat.pow_lt_pow_iff_right (by omega)).mp hmk
      congr 1
      omega

theorem binLog2UpperBound_fixed {u : ℕ} (hpow : u = maxUint32 ∨ ∃ k ≤ 31, u = 2 ^ k)
    (hne : u ≠ 2 ^ 31) : binLog2UpperBound u = u := by
  rcases hpow with rfl | ⟨k, hk, rfl⟩
  · exact binLog2UpperBound_max
  · have hk' : k ≠ 31 := by
      rintro rfl
      exact hne rfl
    exact binLog2UpperBound_pow (by omega)

theorem binLog2UpperBound_ne {u : ℕ} (hpow : u = maxUint32 ∨ ∃ k ≤ 31, u = 2 ^ k) :
    binLog2UpperBound u ≠ 2 ^ 31 := by
  by_cases hu : u = 2 ^ 31
  · rw [hu]
    decide
  · rw [binLog2UpperBound_fixed hpow hu]
    exact hu

/-! ### Slots -/

theorem slot_split {slots : List Histogram} {i : ℕ} {h : Histogram} (hget : slots[i]? = some h) :
    ∃ pre post, slots = pre ++ h :: post ∧ ∀ h', slots.set i h' = pre ++ h' :: post := by
  obtain ⟨hlt, hi⟩ := List.getElem?_eq_some_iff.mp hget
  refine ⟨slots.take i, slots.drop (i + 1), ?_, ?_⟩
  · rw [← hi, List.getElem_cons_drop, List.take_append_drop]
  · intro h'
    rw [List.set_eq_take_append_cons_drop, if_pos hlt]

theorem recordSlot_tables {slots : List Histogram} (hall : ∀ h ∈ slots, Log2Table h) (e : Event) :
    ∀ h ∈ (recordSlot slots e).1, Log2Table h := by
  rw [recordSlot]
  cases hget : slots[e.slot]? with
  | none => exact hall
  | some h =>
    intro x hx
    rcases List.mem_or_eq_of_mem_set hx with hx | rfl
    · exact hall x hx
    · exact (recordStep_table (hall h (List.mem_of_getElem? hget)) e.sample).1

theorem slotsAfter_tables (workers : ℕ) (events : List Event) :
    ∀ h ∈ slotsAfter workers events, Log2Table h := by
  refine exec_invariant recordSlot (fun _ _ => True) (fun slots => ∀ h ∈ slots, Log2Table h) ?_
    events (List.replicate workers newLog2) ?_
    (meets_of_forall recordSlot (fun _ => True) events _ fun _ _ => trivial)
  · intro slots e hall _
    exact recordSlot_tables hall e
  · intro h hh
    rw [List.eq_of_mem_replicate hh]
    exact ⟨rfl, _, _, newLog2_table, by simp⟩

/-! ### What a record adds to the slots -/

theorem countAt_append (g : ℕ → ℕ) (l m : List Bin) (u : ℕ) :
    countAt g (l ++ m) u = countAt g l u + countAt g m u := by
  rw [countAt, List.map_append, List.sum_append]
  rfl

theorem countAt_perm {l m : List Bin} (h : l.Perm m) (g : ℕ → ℕ) (u : ℕ) :
    countAt g l u = countAt g m u := (h.map _).sum_eq

theorem putBound_perm {ub : ℕ} {bs : List ℕ} (hnodup : bs.Nodup) :
    ∃ rest, (Table.putBound ub bs).Perm (ub :: rest) ∧ ub ∉ rest ∧
      (ub ∈ bs ∧ bs.Perm (ub :: rest) ∨ ub ∉ bs ∧ rest = bs) := by
  by_cases hub : ub ∈ bs
  · have hperm : bs.Perm (ub :: bs.erase ub) := List.perm_cons_erase hub
    refine ⟨bs.erase ub, ?_, ?_, .inl ⟨hub, hperm⟩⟩
    · rw [Table.putBound, if_pos hub]
      exact hperm
    · exact (List.nodup_cons.mp (hperm.nodup_iff.mp hnodup)).1
  · refine ⟨bs, ?_, hub, .inr ⟨hub, rfl⟩⟩
    rw [Table.putBound, if_neg hub, insertBound]
    refine List.perm_middle.trans ?_
    rw [List.take_append_drop]

theorem countAt_put {bs : List ℕ} {cnt : ℕ → ℕ} (hnodup : bs.Nodup)
    (hfresh : ∀ u, u ∉ bs → cnt u = 0) (ub c : ℕ) (g : ℕ → ℕ) (u : ℕ) :
    countAt g ((Table.putBound ub bs).map fun v => ⟨v, bump cnt ub c v⟩) u % 2 ^ 32 =
      (countAt g (bs.map fun v => ⟨v, cnt v⟩) u + if g ub = u then c else 0) % 2 ^ 32 := by
  obtain ⟨rest, hperm, hnew, hold⟩ := @putBound_perm ub bs hnodup
  have hrest : (rest.map fun v => (⟨v, bump cnt ub c v⟩ : Bin)) = rest.map fun v => ⟨v, cnt v⟩ := by
    apply List.map_congr_left
    intro v hv
    have hne : v ≠ ub := by
      rintro rfl
      exact hnew hv
    rw [bump_of_ne hne]
  have hcons : ∀ cnt' : ℕ → ℕ, countAt g ((ub :: rest).map fun v => ⟨v, cnt' v⟩) u =
      (if g ub = u then cnt' ub else 0) + countAt g (rest.map fun v => ⟨v, cnt' v⟩) u := by
    intro cnt'
    rw [countAt, List.map_cons, List.map_cons, List.sum_cons]
    rfl
  have hbefore : countAt g (bs.map fun v => ⟨v, cnt v⟩) u =
      (if g ub = u then cnt ub else 0) + countAt g (rest.map fun v => ⟨v, cnt v⟩) u := by
    rcases hold with ⟨-, hbs⟩ | ⟨hub, rfl⟩
    · rw [countAt_perm (hbs.map _), hcons cnt]
    · rw [hfresh ub hub, ite_self, Nat.zero_add]
  rw [countAt_perm (hperm.map _), hcons, hrest, hbefore, bump_self]
  split
  · omega
  · omega

theorem recordStep_sum {h : Histogram} (hh : Log2Table h) (s : Sample) :
    (recordStep h s).1.sum = (h.sum + s.value) % 2 ^ 64 := by
  obtain ⟨hlog, bs, cnt, t, -⟩ := hh
  obtain ⟨h', hrec, -, hsum, -⟩ := record_table t hlog s
  rw [recordStep, hrec]
  exact hsum

/-- A sample that has its bin. -/
theorem recordStep_placed {h : Histogram} (hh : Log2Table h) (s : Sample)
    (hroom : binLog2UpperBound s.value ∈ usedBounds h.bins ∨
      Table.Room h (usedBounds h.bins) true s.alloc) :
    (∀ u, u ∈ usedBounds (recordStep h s).1.bins ↔
        u = binLog2UpperBound s.value ∨ u ∈ usedBounds h.bins) ∧
      ∀ g u, countAt g (usedBins (recordStep h s).1.bins) u % 2 ^ 32 =
        (countAt g (usedBins h.bins) u +
          if g (binLog2UpperBound s.value) = u then 1 else 0) % 2 ^ 32 := by
  obtain ⟨hlog, bs, cnt, t, -⟩ := hh
  obtain ⟨h', hrec, -, -, hcase⟩ := record_table t hlog s
  rw [t.bounds] at hroom ⊢
  have t' := (hcase.resolve_right fun hno => hno.1.2 (hroom.resolve_left hno.1.1)).2
  rw [recordStep, hrec, t'.bounds, t'.used, t.used]
  exact ⟨fun u => mem_putBound, fun g u => countAt_put t.arranged.nodup t.fresh _ 1 g u⟩

/-! ### What the slots hold after the recordings -/

/-- Slots that agree with the samples recorded so far. -/
structure Holds (slots : List Histogram) (values : List ℕ) : Prop where
  bounds : ∀ u, (u = maxUint32 ∨ ∃ b ∈ binStream slots, b.upperBound = u) ↔
    u = maxUint32 ∨ ∃ v ∈ values, binLog2UpperBound v = u
  counts : ∀ g u, countAt g (binStream slots) u % 2 ^ 32 =
    values.countP (fun v => g (binLog2UpperBound v) = u) % 2 ^ 32

theorem binStream_split (pre post : List Histogram) (h : Histogram) :
    binStream (pre ++ h :: post) = binStream pre ++ (usedBins h.bins ++ binStream post) := by
  rw [binStream, List.flatMap_append, List.flatMap_cons]
  rfl

theorem mem_usedBounds {bins : List Bin} {u : ℕ} :
    u ∈ usedBounds bins ↔ ∃ b ∈ usedBins bins, b.upperBound = u := List.mem_map

theorem recordSlot_holds {slots : List Histogram} (hall : ∀ h ∈ slots, Log2Table h)
    {values : List ℕ} (hh : Holds slots values) {e : Event} (hslot : e.slot < slots.length)
    (hplaced : Placed slots e) :
    Holds (recordSlot slots e).1 (values ++ [e.sample.value]) := by
  have hget : slots[e.slot]? = some slots[e.slot] := List.getElem?_eq_getElem hslot
  obtain ⟨pre, post, hsplit, hset⟩ := slot_split hget
  have hlog : Log2Table slots[e.slot] := hall _ (List.getElem_mem hslot)
  obtain ⟨hmem, hcount⟩ := recordStep_placed hlog e.sample (hplaced _ hget)
  have hafter : (recordSlot slots e).1 =
      pre ++ (recordStep slots[e.slot] e.sample).1 :: post := by
    rw [recordSlot, hget]
    exact hset _
  obtain ⟨hbounds, hcounts⟩ := hh
  rw [hsplit, binStream_split] at hbounds hcounts
  simp only [List.mem_append, or_and_right, exists_or, ← mem_usedBounds] at hbounds
  simp only [countAt_append] at hcounts
  constructor
  · intro u
    rw [hafter, binStream_split]
    simp only [List.mem_append, or_and_right, exists_or, ← mem_usedBounds, hmem]
    have hold := hbounds u
    simp only [List.mem_singleton, exists_eq_left]
    grind
  · intro g u
    rw [hafter, binStream_split]
    simp only [countAt_append, List.countP_append]
    have hold := hcounts g u
    have hstep := hcount g u
    have hone : List.countP (fun v => decide (g (binLog2UpperBound v) = u)) [e.sample.value] =
        if g (binLog2UpperBound e.sample.value) = u then 1 else 0 := by
      rw [List.countP_singleton]
      simp only [decide_eq_true_eq]
    rw [hone]
    generalize (if g (binLog2UpperBound e.sample.value) = u then 1 else 0) = one at *
    omega

theorem recordSlot_length (slots : List Histogram) (e : Event) :
    (recordSlot slots e).1.length = slots.length := by
  rw [recordSlot]
  split
  · rfl
  · exact List.length_set

theorem run_holds (events : List Event) : ∀ {slots : List Histogram} {values : List ℕ},
    (∀ h ∈ slots, Log2Table h) → Holds slots values → (∀ e ∈ events, e.slot < slots.length) →
      Meets recordSlot Placed slots events →
      Holds (exec recordSlot slots events).1 (values ++ events.map (·.sample.value)) := by
  induction events with
  | nil =>
    intro slots values _ hh _ _
    rw [List.map_nil, List.append_nil]
    exact hh
  | cons e events ih =>
    intro slots values hall hh hslot hplaced
    have hrest : ∀ x ∈ events, x.slot < (recordSlot slots e).1.length := by
      intro x hx
      rw [recordSlot_length]
      exact hslot x (List.mem_cons_of_mem _ hx)
    have hstep := recordSlot_holds hall hh (hslot e (List.mem_cons_self ..)) hplaced.1
    have hrun := ih (recordSlot_tables hall e) hstep hrest hplaced.2
    rw [List.append_assoc] at hrun
    exact hrun

theorem run_sum (events : List Event) : ∀ {slots : List Histogram},
    (∀ h ∈ slots, Log2Table h) → (∀ e ∈ events, e.slot < slots.length) →
      ((exec recordSlot slots events).1.map (·.sum)).sum % 2 ^ 64 =
        ((slots.map (·.sum)).sum + (events.map (·.sample.value)).sum) % 2 ^ 64 := by
  induction events with
  | nil => intro slots _ _; rfl
  | cons e events ih =>
    intro slots hall hslot
    have hlt := hslot e (List.mem_cons_self ..)
    have hget : slots[e.slot]? = some slots[e.slot] := List.getElem?_eq_getElem hlt
    obtain ⟨pre, post, hsplit, hset⟩ := slot_split hget
    have hafter : (recordSlot slots e).1 =
        pre ++ (recordStep slots[e.slot] e.sample).1 :: post := by
      rw [recordSlot, hget]
      exact hset _
    have hsum := recordStep_sum (hall _ (List.getElem_mem hlt)) e.sample
    have hrest : ∀ x ∈ events, x.slot < (recordSlot slots e).1.length := by
      intro x hx
      rw [recordSlot_length]
      exact hslot x (List.mem_cons_of_mem _ hx)
    have hbefore : (slots.map (·.sum)).sum =
        (pre.map (·.sum)).sum + (slots[e.slot].sum + (post.map (·.sum)).sum) := by
      have hmap := congrArg (fun l : List Histogram => (l.map (·.sum)).sum) hsplit
      simpa only [List.map_append, List.map_cons, List.sum_append, List.sum_cons] using hmap
    rw [exec_cons, ih (recordSlot_tables hall e) hrest, hafter, hbefore, List.map_cons]
    simp only [List.map_append, List.map_cons, List.sum_append, List.sum_cons, hsum]
    omega

theorem start_holds (workers : ℕ) : Holds (List.replicate workers newLog2) [] := by
  have hstream : ∀ b ∈ binStream (List.replicate workers newLog2), b = ⟨maxUint32, 0⟩ := by
    intro b hb
    obtain ⟨h, hh, hb⟩ := List.mem_flatMap.mp hb
    rw [List.eq_of_mem_replicate hh] at hb
    exact List.mem_singleton.mp hb
  constructor
  · intro u
    constructor
    · rintro (hu | ⟨b, hb, rfl⟩)
      · exact .inl hu
      · rw [hstream b hb]
        exact .inl rfl
    · rintro (hu | ⟨v, hv, -⟩)
      · exact .inl hu
      · exact absurd hv List.not_mem_nil
  · intro g u
    have hzero : countAt g (binStream (List.replicate workers newLog2)) u = 0 := by
      apply List.sum_eq_zero
      intro x hx
      obtain ⟨b, hb, rfl⟩ := List.mem_map.mp hx
      rw [hstream b hb, ite_self]
    rw [hzero]
    rfl

theorem slotsAfter_holds {workers : ℕ} {events : List Event}
    (hslot : ∀ e ∈ events, e.slot < workers)
    (hplaced : Meets recordSlot Placed (List.replicate workers newLog2) events) :
    Holds (slotsAfter workers events) (events.map (·.sample.value)) := by
  have hall : ∀ h ∈ List.replicate workers newLog2, Log2Table h := by
    intro h hh
    rw [List.eq_of_mem_replicate hh]
    exact ⟨rfl, _, _, newLog2_table, by simp⟩
  have hlen : ∀ e ∈ events, e.slot < (List.replicate workers newLog2).length := by
    intro e he
    rw [List.length_replicate]
    exact hslot e he
  have hrun := run_holds events hall (start_holds workers) hlen hplaced
  rw [List.nil_append] at hrun
  exact hrun

theorem slotsAfter_sum {workers : ℕ} {events : List Event}
    (hslot : ∀ e ∈ events, e.slot < workers) :
    ((slotsAfter workers events).map (·.sum)).sum % 2 ^ 64 =
      (events.map (·.sample.value)).sum % 2 ^ 64 := by
  have hall : ∀ h ∈ List.replicate workers newLog2, Log2Table h := by
    intro h hh
    rw [List.eq_of_mem_replicate hh]
    exact ⟨rfl, _, _, newLog2_table, by simp⟩
  have hlen : ∀ e ∈ events, e.slot < (List.replicate workers newLog2).length := by
    intro e he
    rw [List.length_replicate]
    exact hslot e he
  have hzero : ((List.replicate workers newLog2).map (·.sum)).sum = 0 := by
    rw [List.map_replicate]
    exact List.sum_eq_zero fun x hx => List.eq_of_mem_replicate hx
  rw [slotsAfter, run_sum events hall hlen, hzero, Nat.zero_add]

/-! ### The merge of all slots -/

theorem mem_allBounds {slots : List Histogram} {u : ℕ} :
    u ∈ allBounds slots ↔ u = maxUint32 ∨ ∃ b ∈ binStream slots, b.upperBound = u := by
  rw [allBounds, Finset.mem_sort, Finset.mem_insert, List.mem_toFinset, List.mem_map]

theorem allBounds_sorted (slots : List Histogram) : (allBounds slots).Pairwise (· < ·) := by
  have hle := Finset.pairwise_sort
    (insert maxUint32 ((binStream slots).map (·.upperBound)).toFinset) (· ≤ ·)
  have hne := Finset.sort_nodup
    (insert maxUint32 ((binStream slots).map (·.upperBound)).toFinset) (· ≤ ·)
  exact hle.imp₂ (fun _ _ h hn => Nat.lt_of_le_of_ne h hn) hne

/-- What the merge of the slots is, where the buffer has room for their bounds. -/
theorem get_table {slots : List Histogram} (hall : ∀ h ∈ slots, Log2Table h)
    (few : (allBounds slots).length ≤ binsMax) :
    ∃ out, histogramGet slots histogramBuffer = some out ∧
      Table out (absorbBounds [maxUint32] (binStream slots))
        (fun u => countAt binLog2UpperBound (binStream slots) u % 2 ^ 32) ∧
      out.hType = .log2 ∧ out.nBins = binsMax ∧
      out.sum = (slots.map (·.sum)).sum % 2 ^ 64 := by
  have hlog : ∀ h ∈ slots, h.hType = .log2 ∧ h.bins.length = h.nBins := by
    intro h hh
    obtain ⟨hlog, bs, cnt, t, -⟩ := hall h hh
    exact ⟨hlog, t.length⟩
  have hmax : maxUint32 ∈ (allBounds slots).map binLog2UpperBound :=
    List.mem_map.mpr ⟨_, mem_allBounds.mpr (.inl rfl), binLog2UpperBound_max⟩
  have hput : ∀ b ∈ binStream slots,
      binLog2UpperBound b.upperBound ∈ (allBounds slots).map binLog2UpperBound := fun b hb =>
    List.mem_map.mpr ⟨_, mem_allBounds.mpr (.inr ⟨b, hb, rfl⟩), rfl⟩
  have hlen : ((allBounds slots).map binLog2UpperBound).length ≤ histogramBuffer.nBins := by
    rw [List.length_map]
    exact few
  obtain ⟨out, hget, t, htype, hn, hsum⟩ := histogramGet_log2 slots hlog histogramBuffer_table
    (by simpa using hmax) hlen (by decide) hput
  have hcnt : absorbCounts (fun _ => 0) (binStream slots) =
      fun u => countAt binLog2UpperBound (binStream slots) u % 2 ^ 32 := by
    funext u
    rw [absorbCounts_eq u _ _ (by decide), Nat.zero_add]
  rw [hcnt] at t
  refine ⟨out, hget, t, htype, hn, hsum.trans ?_⟩
  rw [show histogramBuffer.sum = 0 from rfl, Nat.zero_add]

theorem stream_power {slots : List Histogram} (hall : ∀ h ∈ slots, Log2Table h) :
    ∀ b ∈ binStream slots, b.upperBound = maxUint32 ∨ ∃ k ≤ 31, b.upperBound = 2 ^ k := by
  intro b hb
  obtain ⟨h, hh, hb⟩ := List.mem_flatMap.mp hb
  obtain ⟨-, bs, cnt, t, hpow⟩ := hall h hh
  have hmem : b.upperBound ∈ usedBounds h.bins := mem_usedBounds.mpr ⟨b, hb, rfl⟩
  rw [t.bounds] at hmem
  exact hpow _ hmem

theorem stream_head (slots : List Histogram) :
    (absorbBounds [maxUint32] (binStream slots)).headD maxUint32 = firstPut slots := by
  rw [absorbBounds_head _ .empty, List.headD_cons, if_pos rfl]
  rfl

/-- Without a bin for 2^31 a merge puts the bounds as they are. -/
theorem stream_fixed {slots : List Histogram} (hall : ∀ h ∈ slots, Log2Table h)
    (hfixed : ∀ b ∈ binStream slots, b.upperBound ≠ 2 ^ 31) :
    ∀ b ∈ binStream slots, binLog2UpperBound b.upperBound = b.upperBound := fun b hb =>
  binLog2UpperBound_fixed (stream_power hall b hb) (hfixed b hb)

theorem countAt_fixed {g : ℕ → ℕ} {l : List Bin} (h : ∀ b ∈ l, g b.upperBound = b.upperBound)
    (u : ℕ) : countAt g l u = countAt id l u := by
  rw [countAt, countAt]
  congr 1
  apply List.map_congr_left
  intro b hb
  rw [h b hb, id]

theorem firstFinite_le_max {bounds : List ℕ} (h : ∀ u ∈ bounds, u ≤ maxUint32) :
    firstFinite bounds ≤ maxUint32 := by
  rw [firstFinite]
  cases hfind : bounds.find? (· != maxUint32) with
  | none => exact Nat.le_refl _
  | some u => exact h u (List.mem_of_find?_eq_some hfind)

theorem get_merged_of_inOrder {slots : List Histogram} (hall : ∀ h ∈ slots, Log2Table h)
    (hin : MergesInOrder slots) {out : Histogram} {cnt : ℕ → ℕ}
    (hcnt : cnt = fun u => countAt binLog2UpperBound (binStream slots) u % 2 ^ 32)
    (t : Table out (absorbBounds [maxUint32] (binStream slots)) cnt) :
    usedBins out.bins = (allBounds slots).map fun u => ⟨u, countAt id (binStream slots) u⟩ := by
  have hfixed := stream_fixed hall hin.fixed
  have hput : ((binStream slots).map fun b => binLog2UpperBound b.upperBound) =
      (binStream slots).map (·.upperBound) := List.map_congr_left hfixed
  have hmem : ∀ u, u ∈ absorbBounds [maxUint32] (binStream slots) ↔ u ∈ allBounds slots := by
    intro u
    rw [mem_absorbBounds, mem_allBounds, List.mem_singleton]
    constructor
    · rintro (h | ⟨b, hb, h⟩)
      · exact .inl h
      · exact .inr ⟨b, hb, (hfixed b hb).symm.trans h⟩
    · rintro (h | ⟨b, hb, h⟩)
      · exact .inl h
      · exact .inr ⟨b, hb, (hfixed b hb).trans h⟩
  have hsorted : (absorbBounds [maxUint32] (binStream slots)).Pairwise (· < ·) := by
    rw [t.arranged.sorted_iff, stream_head, firstPut, hput]
    intro u hu
    rcases mem_allBounds.mp ((hmem u).mp hu) with rfl | ⟨b, hb, rfl⟩
    · apply firstFinite_le_max
      intro v hv
      obtain ⟨b, hb, rfl⟩ := List.mem_map.mp hv
      rw [← hfixed b hb]
      exact binLog2UpperBound_le _
    · exact hin.first b hb
  have hperm := (List.perm_ext_iff_of_nodup t.arranged.nodup
    ((allBounds_sorted slots).imp Nat.ne_of_lt)).mpr hmem
  have hbounds := hperm.eq_of_pairwise
    (fun x y _ _ hxy hyx => absurd hyx (Nat.lt_asymm hxy)) hsorted (allBounds_sorted slots)
  rw [t.used, hbounds]
  apply List.map_congr_left
  intro u _
  rw [hcnt]
  simp only [countAt_fixed hfixed, Bin.mk.injEq, true_and]
  exact Nat.mod_eq_of_lt (hin.counts u)

theorem inOrder_of_merged {slots : List Histogram} (hall : ∀ h ∈ slots, Log2Table h)
    {out : Histogram} {cnt : ℕ → ℕ}
    (hcnt : cnt = fun u => countAt binLog2UpperBound (binStream slots) u % 2 ^ 32)
    (t : Table out (absorbBounds [maxUint32] (binStream slots)) cnt)
    (hbins : usedBins out.bins =
      (allBounds slots).map fun u => ⟨u, countAt id (binStream slots) u⟩) :
    MergesInOrder slots := by
  have hpow := stream_power hall
  rw [t.used] at hbins
  have hbounds : absorbBounds [maxUint32] (binStream slots) = allBounds slots := by
    have hmap := congrArg (List.map (·.upperBound)) hbins
    rw [List.map_map, List.map_map] at hmap
    exact (List.map_id _).symm.trans (hmap.trans (List.map_id _))
  have hfixed : ∀ b ∈ binStream slots, b.upperBound ≠ 2 ^ 31 := by
    intro b hb heq
    have hmem : (2 ^ 31 : ℕ) ∈ allBounds slots := mem_allBounds.mpr (.inr ⟨b, hb, heq⟩)
    rw [← hbounds, mem_absorbBounds] at hmem
    rcases hmem with hmem | ⟨c, hc, hmem⟩
    · exact absurd (List.mem_singleton.mp hmem) (by decide)
    · exact binLog2UpperBound_ne (hpow c hc) hmem
  refine ⟨hfixed, ?_, ?_⟩
  · have hput : ((binStream slots).map fun b => binLog2UpperBound b.upperBound) =
        (binStream slots).map (·.upperBound) := List.map_congr_left (stream_fixed hall hfixed)
    have hsorted := allBounds_sorted slots
    rw [← hbounds, t.arranged.sorted_iff, stream_head, firstPut, hput] at hsorted
    intro b hb
    apply hsorted
    rw [hbounds]
    exact mem_allBounds.mpr (.inr ⟨b, hb, rfl⟩)
  · intro u
    by_cases hu : u ∈ allBounds slots
    · rw [hbounds, List.map_inj_left] at hbins
      have hcount := (Bin.mk.inj (hbins u hu)).2
      rw [← hcount, hcnt]
      exact Nat.mod_lt _ (by omega)
    · have hzero : countAt id (binStream slots) u = 0 := by
        apply List.sum_eq_zero
        intro x hx
        obtain ⟨b, hb, rfl⟩ := List.mem_map.mp hx
        exact if_neg fun heq => hu (mem_allBounds.mpr (.inr ⟨b, hb, heq⟩))
      rw [hzero]
      omega

theorem mem_absorb_iff {slots : List Histogram} {u : ℕ} :
    u ∈ absorbBounds [maxUint32] (binStream slots) ↔
      u = maxUint32 ∨ ∃ w, w ∈ allBounds slots ∧ binLog2UpperBound w = u := by
  rw [mem_absorbBounds, List.mem_singleton]
  constructor
  · rintro (h | ⟨b, hb, h⟩)
    · exact .inl h
    · exact .inr ⟨_, mem_allBounds.mpr (.inr ⟨b, hb, rfl⟩), h⟩
  · rintro (h | ⟨w, hw, rfl⟩)
    · exact .inl h
    · rcases mem_allBounds.mp hw with rfl | ⟨b, hb, rfl⟩
      · exact .inl binLog2UpperBound_max
      · exact .inr ⟨b, hb, rfl⟩

/-- Recordings of the same samples, each in its own bin, are merged alike exactly when the
same finite bound is put first. -/
theorem get_eq_iff {slots slots' : List Histogram} {values values' : List ℕ}
    (hall : ∀ h ∈ slots, Log2Table h) (hall' : ∀ h ∈ slots', Log2Table h)
    (hh : Holds slots values) (hh' : Holds slots' values') (hperm : values.Perm values')
    (few : (allBounds slots).length ≤ binsMax)
    (hsum : (slots.map (·.sum)).sum % 2 ^ 64 = (slots'.map (·.sum)).sum % 2 ^ 64) :
    histogramGet slots histogramBuffer = histogramGet slots' histogramBuffer ↔
      firstPut slots = firstPut slots' := by
  have hbounds : ∀ u, u ∈ allBounds slots ↔ u ∈ allBounds slots' := by
    intro u
    rw [mem_allBounds, mem_allBounds, hh.bounds, hh'.bounds]
    simp only [hperm.mem_iff]
  have hlen : (allBounds slots).length = (allBounds slots').length :=
    ((List.perm_ext_iff_of_nodup ((allBounds_sorted slots).imp Nat.ne_of_lt)
      ((allBounds_sorted slots').imp Nat.ne_of_lt)).mpr hbounds).length_eq
  have few' : (allBounds slots').length ≤ binsMax := by
    rw [← hlen]
    exact few
  obtain ⟨out, hget, t, htype, hn, hs⟩ := get_table hall few
  obtain ⟨out', hget', t', htype', hn', hs'⟩ := get_table hall' few'
  have hcnt : (fun u => countAt binLog2UpperBound (binStream slots) u % 2 ^ 32) =
      fun u => countAt binLog2UpperBound (binStream slots') u % 2 ^ 32 := by
    funext u
    rw [hh.counts, hh'.counts, hperm.countP_eq]
  rw [hget, hget', ← stream_head, ← stream_head]
  constructor
  · intro heq
    have hbins := congrArg usedBounds (congrArg Histogram.bins (Option.some.inj heq))
    rw [t.bounds, t'.bounds] at hbins
    rw [hbins]
  · intro hhead
    have hmem : ∀ u, u ∈ absorbBounds [maxUint32] (binStream slots) ↔
        u ∈ absorbBounds [maxUint32] (binStream slots') := by
      intro u
      rw [mem_absorb_iff, mem_absorb_iff]
      simp only [hbounds]
    have hbs := t.arranged.ext t'.arranged hmem hhead
    have hbins : out.bins = out'.bins := by
      rw [t.bins, t'.bins, hbs, hcnt, hn, hn']
    have hsum' : out.sum = out'.sum := by rw [hs, hs', hsum]
    obtain ⟨hType, nBins, sum, bins⟩ := out
    obtain ⟨hType', nBins', sum', bins'⟩ := out'
    simp only at htype htype' hn hn' hsum' hbins
    rw [htype, htype', hn, hn', hsum', hbins]

/-- With at most 18 bounds altogether, the merge of the workers' slots has one bin for each
bound, in order and with its counts, exactly when the first finite bound met is the least,
none is 2^31 and no count overflows; and two ways of recording the same samples are merged
alike exactly when they put the same finite bound first. -/
theorem histogramGet_iff (workers : ℕ) (events : List Event)
    (assigned : ∀ e ∈ events, e.slot < workers)
    (few : (allBounds (slotsAfter workers events)).length ≤ binsMax) :
    ((∃ out, histogramGet (slotsAfter workers events) histogramBuffer = some out ∧
        Merged (slotsAfter workers events) events out) ↔
      MergesInOrder (slotsAfter workers events)) ∧
    ∀ (workers' : ℕ) (events' : List Event), (∀ e ∈ events', e.slot < workers') →
      Meets recordSlot Placed (List.replicate workers newLog2) events →
      Meets recordSlot Placed (List.replicate workers' newLog2) events' →
      (events.map (·.sample.value)).Perm (events'.map (·.sample.value)) →
      (histogramGet (slotsAfter workers events) histogramBuffer =
          histogramGet (slotsAfter workers' events') histogramBuffer ↔
        firstPut (slotsAfter workers events) = firstPut (slotsAfter workers' events')) := by
  have hall := slotsAfter_tables workers events
  constructor
  · obtain ⟨out, hget, t, -, -, hsum⟩ := get_table hall few
    rw [slotsAfter_sum assigned] at hsum
    constructor
    · rintro ⟨out', hget', hmerged⟩
      obtain rfl : out = out' := Option.some.inj (hget.symm.trans hget')
      exact inOrder_of_merged hall rfl t hmerged.bins
    · intro hin
      exact ⟨out, hget, get_merged_of_inOrder hall hin rfl t, hsum⟩
  · intro workers' events' assigned' hplaced hplaced' hperm
    refine get_eq_iff hall (slotsAfter_tables workers' events')
      (slotsAfter_holds assigned hplaced) (slotsAfter_holds assigned' hplaced') hperm few ?_
    rw [slotsAfter_sum assigned, slotsAfter_sum assigned', hperm.sum_eq]

theorem two_workers_merged :
    ((∃ out, histogramGet (slotsAfter 2 [⟨0, 1, true⟩, ⟨1, 9, true⟩]) histogramBuffer = some out ∧
        Merged (slotsAfter 2 [⟨0, 1, true⟩, ⟨1, 9, true⟩]) [⟨0, 1, true⟩, ⟨1, 9, true⟩] out) ↔
      MergesInOrder (slotsAfter 2 [⟨0, 1, true⟩, ⟨1, 9, true⟩])) := by
  have few : (allBounds (slotsAfter 2 [⟨0, 1, true⟩, ⟨1, 9, true⟩])).length ≤ binsMax := by
    rw [allBounds, Finset.length_sort]
    decide
  exact (histogramGet_iff 2 [⟨0, 1, true⟩, ⟨1, 9, true⟩] (by decide) few).1

/-- Worker 0 records 9 and worker 1 records 1: the bin of 1 comes behind that of 16. -/
theorem two_workers_unsorted :
    (histogramGet (slotsAfter 2 [⟨0, 9, true⟩, ⟨1, 1, true⟩]) histogramBuffer).map
        (fun out => usedBins out.bins) = some [⟨16, 1⟩, ⟨1, 1⟩, ⟨maxUint32, 0⟩] ∧
      (histogramGet (slotsAfter 2 [⟨0, 1, true⟩, ⟨1, 9, true⟩]) histogramBuffer).map
        (fun out => usedBins out.bins) = some [⟨1, 1⟩, ⟨16, 1⟩, ⟨maxUint32, 0⟩] := by
  decide

end NgxWasm.Metrics
