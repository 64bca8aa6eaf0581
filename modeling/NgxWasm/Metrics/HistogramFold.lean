import NgxWasm.Metrics.HistogramGet

/-!
# A histogram folded into a new one

`realloc_histogram` merges the old slots into slot 0 of a new LOG2 histogram of 5 bins.
What a later merge of the new slots shows is compared with what a merge of the old ones
showed.
-/

namespace NgxWasm.Metrics

open NgxWasm.Lib.Links

/-! ### Merges without enough room -/

/-- Whatever the room, a merge puts no other bounds, and leaves one out only when it is full. -/
structure Absorbed (out : Histogram) (bs : List ℕ) (l : List Bin) (out' : Histogram)
    (bs' : List ℕ) : Prop where
  hType : out'.hType = out.hType
  nBins : out'.nBins = out.nBins
  kept : bs ⊆ bs'
  all_or_full : (∀ b ∈ l, binLog2UpperBound b.upperBound ∈ bs') ∨ bs'.length = out.nBins
  only : ∀ u ∈ bs', u ∈ bs ∨ ∃ b ∈ l, binLog2UpperBound b.upperBound = u

theorem Absorbed.nil (out : Histogram) (bs : List ℕ) : Absorbed out bs [] out bs :=
  ⟨rfl, rfl, List.Subset.refl _, .inl fun _ h => absurd h List.not_mem_nil, fun _ h => .inl h⟩

theorem Absorbed.append {out out₁ out₂ : Histogram} {bs bs₁ bs₂ : List ℕ} {l m : List Bin}
    (h : Absorbed out bs l out₁ bs₁) (h' : Absorbed out₁ bs₁ m out₂ bs₂)
    (hnodup : bs₁.Nodup) (hroom : bs₂.length ≤ out₂.nBins) :
    Absorbed out bs (l ++ m) out₂ bs₂ := by
  have hlen : bs₁.length ≤ bs₂.length := (hnodup.subperm h'.kept).length_le
  have hn : out₂.nBins = out.nBins := h'.nBins.trans h.nBins
  refine ⟨h'.hType.trans h.hType, hn, List.Subset.trans h.kept h'.kept, ?_, ?_⟩
  · rcases h.all_or_full with hall | hfull
    · rcases h'.all_or_full with hall' | hfull'
      · left
        intro b hb
        rcases List.mem_append.mp hb with hb | hb
        · exact h'.kept (hall b hb)
        · exact hall' b hb
      · right
        rw [hfull', h.nBins]
    · right
      omega
  · intro u hu
    rcases h'.only u hu with hu | ⟨b, hb, hu⟩
    · rcases h.only u hu with hu | ⟨b, hb, hu⟩
      · exact .inl hu
      · exact .inr ⟨b, List.mem_append_left _ hb, hu⟩
    · exact .inr ⟨b, List.mem_append_right _ hb, hu⟩

theorem mergeBins_absorbed {all : List Bin} (rest : List Bin) :
    ∀ {j : ℕ} {out : Histogram} {bs : List ℕ} {cnt : ℕ → ℕ}, all.drop j = rest →
      Table out bs cnt →
      ∃ out' bs' cnt', mergeBins .log2 all rest.length j out = some out' ∧ Table out' bs' cnt' ∧
        Absorbed out bs (usedBins rest) out' bs' := by
  induction rest with
  | nil =>
    intro j out bs cnt _ t
    exact ⟨out, bs, cnt, rfl, t, .nil out bs⟩
  | cons b rest ih =>
    intro j out bs cnt hdrop t
    obtain ⟨hget, hdrop'⟩ := getElem?_of_drop hdrop
    obtain ⟨h₁, i, out₁, hbin, hadd, htype, -, hn, hcase⟩ := t.put b.upperBound b.count false false
    have hone : ∃ bs₁ cnt₁, Table out₁ bs₁ cnt₁ ∧ Absorbed out bs [b] out₁ bs₁ := by
      rcases hcase with ⟨-, t₁⟩ | ⟨⟨hub, hno⟩, u, -, t₁⟩
      · refine ⟨_, _, t₁, htype, hn rfl, ?_, .inl ?_, ?_⟩
        · intro u hu
          exact mem_putBound.mpr (.inr hu)
        · intro x hx
          rw [List.mem_singleton.mp hx]
          exact mem_putBound.mpr (.inl rfl)
        · intro u hu
          rcases mem_putBound.mp hu with rfl | hu
          · exact .inr ⟨b, List.mem_singleton_self _, rfl⟩
          · exact .inl hu
      · refine ⟨_, _, t₁, htype, hn rfl, List.Subset.refl _, .inr ?_, fun u hu => .inl hu⟩
        exact Nat.le_antisymm t.room (Nat.not_lt.mp fun hlt => hno (.inl hlt))
    obtain ⟨bs₁, cnt₁, t₁, hb⟩ := hone
    rw [List.length_cons, mergeBins, hget, usedBins_cons]
    simp only [mergeBin, hbin, hadd]
    split
    next hmax => exact ⟨out₁, bs₁, cnt₁, rfl, t₁, hb⟩
    next hfinite =>
      obtain ⟨out', bs', cnt', hmerge, t', hrest⟩ := ih hdrop' t₁
      exact ⟨out', bs', cnt', hmerge, t', hb.append hrest t₁.arranged.nodup t'.room⟩

theorem histogramGet_absorbed (slots : List Histogram) :
    ∀ {out : Histogram} {bs : List ℕ} {cnt : ℕ → ℕ},
      (∀ h ∈ slots, h.hType = .log2 ∧ h.bins.length = h.nBins) → Table out bs cnt →
      ∃ out' bs' cnt', histogramGet slots out = some out' ∧ Table out' bs' cnt' ∧
        Absorbed out bs (binStream slots) out' bs' := by
  induction slots with
  | nil =>
    intro out bs cnt _ t
    exact ⟨out, bs, cnt, rfl, t, .nil out bs⟩
  | cons h slots ih =>
    intro out bs cnt hlog t
    obtain ⟨htypeh, hlenh⟩ := hlog h (List.mem_cons_self ..)
    obtain ⟨out₁, bs₁, cnt₁, hmerge, t₁, ha₁⟩ := mergeBins_absorbed h.bins (j := 0) rfl t
    obtain ⟨out', bs', cnt', hget, t', ha'⟩ :=
      @ih { out₁ with sum := (out₁.sum + h.sum) % 2 ^ 64 } _ _
        (fun x hx => hlog x (List.mem_cons_of_mem _ hx)) (t₁.withSum _)
    refine ⟨out', bs', cnt', ?_, t', ?_⟩
    · rw [histogramGet, htypeh, ← hlenh, hmerge]
      exact hget
    · have hright : Absorbed out₁ bs₁ (binStream slots) out' bs' :=
        ⟨ha'.hType, ha'.nBins, ha'.kept, ha'.all_or_full, ha'.only⟩
      exact ha₁.append hright t₁.arranged.nodup t'.room

/-! ### Merging what was merged -/

theorem firstFinite_arranged {bs l : List ℕ} (h : Arranged bs)
    (hl : ∀ u ∈ l, u = maxUint32) : firstFinite (bs ++ l) = bs.headD maxUint32 := by
  cases h with
  | empty =>
    have hnone : ([maxUint32] ++ l).find? (· != maxUint32) = none := by
      rw [List.find?_eq_none]
      intro u hu
      rcases List.mem_append.mp hu with hu | hu
      · rw [List.mem_singleton.mp hu]
        decide
      · rw [hl u hu]
        decide
    rw [firstFinite, hnone]
    rfl
  | cons b init hfinite hnew hsorted =>
    have hb : (b != maxUint32) = true := by simpa using Nat.ne_of_lt hfinite
    rw [firstFinite, List.cons_append, List.find?_cons_of_pos (p := fun u => u != maxUint32) hb]
    rfl

theorem countAt_of_mem {l : List Bin} (hnodup : (l.map (·.upperBound)).Nodup) {b : Bin}
    (hb : b ∈ l) : countAt id l b.upperBound = b.count := by
  induction l with
  | nil => exact absurd hb List.not_mem_nil
  | cons x l ih =>
    rw [List.map_cons, List.nodup_cons] at hnodup
    have hcons : countAt id (x :: l) b.upperBound =
        (if x.upperBound = b.upperBound then x.count else 0) + countAt id l b.upperBound := by
      rw [countAt, List.map_cons, List.sum_cons]
      rfl
    rw [hcons]
    rcases List.mem_cons.mp hb with rfl | hb
    · have hzero : countAt id l b.upperBound = 0 := by
        apply List.sum_eq_zero
        intro n hn
        obtain ⟨y, hy, rfl⟩ := List.mem_map.mp hn
        exact if_neg fun heq => hnodup.1 (List.mem_map.mpr ⟨y, hy, heq⟩)
      rw [if_pos rfl, hzero, Nat.add_zero]
    · have hne : x.upperBound ≠ b.upperBound := by
        intro heq
        exact hnodup.1 (List.mem_map.mpr ⟨b, hb, heq.symm⟩)
      rw [if_neg hne, Nat.zero_add]
      exact ih hnodup.2 hb

theorem mem_absorb_power {l : List Bin} {u : ℕ} (hu : u ∈ absorbBounds [maxUint32] l) :
    u = maxUint32 ∨ ∃ k ≤ 31, u = 2 ^ k := by
  rcases (mem_absorbBounds _ _).mp hu with hu | ⟨b, -, rfl⟩
  · exact .inl (List.mem_singleton.mp hu)
  · exact binLog2UpperBound_power _

/-- Bins that are merged, with empty histograms behind them, come out as they are exactly when
they are arranged and their bounds are put as they are. -/
theorem remerge_iff {l empty : List Bin} (hcounts : ∀ b ∈ l, b.count < 2 ^ 32)
    (hempty : ∀ b ∈ empty, b = ⟨maxUint32, 0⟩) :
    ((absorbBounds [maxUint32] (l ++ empty)).map fun u =>
        (⟨u, countAt binLog2UpperBound (l ++ empty) u % 2 ^ 32⟩ : Bin)) = l ↔
      Arranged (l.map (·.upperBound)) ∧ ∀ b ∈ l, binLog2UpperBound b.upperBound = b.upperBound := by
  have hzero : ∀ u, countAt binLog2UpperBound empty u = 0 := by
    intro u
    apply List.sum_eq_zero
    intro x hx
    obtain ⟨b, hb, rfl⟩ := List.mem_map.mp hx
    rw [hempty b hb, ite_self]
  constructor
  · intro heq
    have hbounds : absorbBounds [maxUint32] (l ++ empty) = l.map (·.upperBound) := by
      have hmap := congrArg (List.map (·.upperBound)) heq
      rw [List.map_map] at hmap
      exact (List.map_id _).symm.trans hmap
    refine ⟨?_, ?_⟩
    · rw [← hbounds]
      exact Arranged.empty.absorb
    · intro b hb
      have hmem : ∀ x ∈ l, x.upperBound ∈ absorbBounds [maxUint32] (l ++ empty) := by
        intro x hx
        rw [hbounds]
        exact List.mem_map.mpr ⟨x, hx, rfl⟩
      -- the bound is an image of a bound that is an image itself, which 2^31 is not
      have hne : b.upperBound ≠ 2 ^ 31 := by
        rcases (mem_absorbBounds _ _).mp (hmem b hb) with hmax | ⟨c, hc, himage⟩
        · rw [List.mem_singleton.mp hmax]
          decide
        · rw [← himage]
          apply binLog2UpperBound_ne
          rcases List.mem_append.mp hc with hc | hc
          · exact mem_absorb_power (hmem c hc)
          · rw [hempty c hc]
            exact .inl rfl
      exact binLog2UpperBound_fixed (mem_absorb_power (hmem b hb)) hne
  · rintro ⟨harranged, hfixed⟩
    have hput : ((l ++ empty).map fun b => binLog2UpperBound b.upperBound) =
        l.map (·.upperBound) ++ empty.map (·.upperBound) := by
      rw [List.map_append, List.map_congr_left hfixed]
      congr 1
      apply List.map_congr_left
      intro b hb
      rw [hempty b hb]
      exact binLog2UpperBound_max
    have hbounds : absorbBounds [maxUint32] (l ++ empty) = l.map (·.upperBound) := by
      refine Arranged.empty.absorb.ext harranged ?_ ?_
      · intro u
        rw [mem_absorbBounds, List.mem_singleton, List.mem_map]
        constructor
        · rintro (rfl | ⟨b, hb, rfl⟩)
          · exact List.mem_map.mp harranged.max_mem
          · rcases List.mem_append.mp hb with hb | hb
            · exact ⟨b, hb, (hfixed b hb).symm⟩
            · rw [hempty b hb]
              exact List.mem_map.mp harranged.max_mem
        · rintro ⟨b, hb, rfl⟩
          exact .inr ⟨b, List.mem_append_left _ hb, hfixed b hb⟩
      · rw [absorbBounds_head _ .empty, List.headD_cons, if_pos rfl, hput]
        apply firstFinite_arranged harranged
        intro u hu
        obtain ⟨b, hb, rfl⟩ := List.mem_map.mp hu
        rw [hempty b hb]
    rw [hbounds, List.map_map]
    refine (List.map_congr_left ?_).trans (List.map_id l)
    intro b hb
    have hcount : countAt binLog2UpperBound (l ++ empty) b.upperBound = b.count := by
      rw [countAt_append, hzero, Nat.add_zero, countAt_fixed hfixed]
      exact countAt_of_mem harranged.nodup hb
    simp only [Function.comp_apply, hcount, Nat.mod_eq_of_lt (hcounts b hb), id_eq]

/-! ### CUSTOM slots -/

/-- Bins written over others from the front; only the counts are added. -/
def overlayBins : List Bin → List Bin → List Bin
  | out, [] => out
  | [], _ => []
  | o :: out, b :: l => ⟨b.upperBound, (o.count + b.count) % 2 ^ 32⟩ :: overlayBins out l

theorem overlayBins_length (out l : List Bin) : (overlayBins out l).length = out.length := by
  induction out generalizing l with
  | nil => cases l <;> rfl
  | cons o out ih =>
    cases l with
    | nil => rfl
    | cons b l => simp only [overlayBins, List.length_cons, ih]

/-- What the first bins are depends on their counts only. -/
theorem overlayBins_take (l : List Bin) : ∀ {p q : List Bin}, l.length ≤ p.length →
    l.length ≤ q.length →
    (p.take l.length).map (·.count) = (q.take l.length).map (·.count) →
    (overlayBins p l).take l.length = (overlayBins q l).take l.length := by
  induction l with
  | nil => intro p q _ _ _; rfl
  | cons b l ih =>
    intro p q hp hq hcount
    cases p with
    | nil => simp at hp
    | cons o p =>
      cases q with
      | nil => simp at hq
      | cons r q =>
        simp only [List.length_cons, List.take_succ_cons, List.map_cons, List.cons.injEq] at hcount
        simp only [overlayBins, List.length_cons, List.take_succ_cons, hcount.1]
        rw [ih (Nat.le_of_succ_le_succ hp) (Nat.le_of_succ_le_succ hq) hcount.2]

theorem overlayBins_spec (l : List Bin) : ∀ {p : List Bin}, l.length ≤ p.length →
    ((overlayBins p l).take l.length).map (·.upperBound) = l.map (·.upperBound) ∧
      ∀ b ∈ (overlayBins p l).take l.length, b.count < 2 ^ 32 := by
  induction l with
  | nil =>
    intro p _
    exact ⟨rfl, fun _ h => absurd h List.not_mem_nil⟩
  | cons b l ih =>
    intro p hp
    cases p with
    | nil => simp at hp
    | cons o p =>
      obtain ⟨hbounds, hcounts⟩ := ih (Nat.le_of_succ_le_succ hp)
      constructor
      · simp only [overlayBins, List.length_cons, List.take_succ_cons, List.map_cons, hbounds]
      · intro x hx
        simp only [overlayBins, List.length_cons, List.take_succ_cons] at hx
        rcases List.mem_cons.mp hx with rfl | hx
        · exact Nat.mod_lt _ (by omega)
        · exact hcounts x hx

theorem mergeBins_custom {all : List Bin} (rest : List Bin) :
    ∀ {out : Histogram} {pre post : List Bin}, all.drop pre.length = rest →
      out.bins = pre ++ post →
      mergeBins .custom all rest.length pre.length out =
        if (usedBins rest).length ≤ post.length then
          some { out with bins := pre ++ overlayBins post (usedBins rest) }
        else none := by
  induction rest with
  | nil =>
    intro out pre post _ hout
    have hused : usedBins ([] : List Bin) = [] := rfl
    have hnil : overlayBins post [] = post := by cases post <;> rfl
    have hle : ([] : List Bin).length ≤ post.length := Nat.zero_le _
    rw [hused, hnil, ← hout, if_pos hle]
    rfl
  | cons b rest ih =>
    intro out pre post hdrop hout
    obtain ⟨hget, hdrop'⟩ := getElem?_of_drop hdrop
    have hpos : 0 < (usedBins (b :: rest)).length := by
      rw [usedBins_cons]
      split
      · exact Nat.one_pos
      · exact Nat.succ_pos _
    rw [List.length_cons, mergeBins, hget]
    cases post with
    | nil =>
      rw [List.append_nil] at hout
      have hnone : out.bins[pre.length]? = none := by
        rw [hout]
        exact List.getElem?_eq_none (Nat.le_refl _)
      have hno : ¬ (usedBins (b :: rest)).length ≤ ([] : List Bin).length := Nat.not_le.mpr hpos
      simp only [mergeBin, hnone]
      rw [if_neg hno]
    | cons o post =>
      have hbin : out.bins[pre.length]? = some o := by
        rw [hout, List.getElem?_append_right (Nat.le_refl _), Nat.sub_self]
        rfl
      have hset : ∀ x : Bin, out.bins.set pre.length x = pre ++ x :: post := by
        intro x
        rw [hout, List.set_append_right _ _ (Nat.le_refl _), Nat.sub_self]
        rfl
      have hadd : addCount { out with bins := pre ++ ⟨b.upperBound, o.count⟩ :: post } pre.length
          b.count = some { out with
            bins := pre ++ ⟨b.upperBound, (o.count + b.count) % 2 ^ 32⟩ :: post } := by
        simp only [addCount]
        rw [List.getElem?_append_right (Nat.le_refl _), Nat.sub_self, List.getElem?_cons_zero]
        simp only
        rw [List.set_append_right _ _ (Nat.le_refl _), Nat.sub_self, List.set_cons_zero]
      simp only [mergeBin, hbin, hset, hadd]
      rw [usedBins_cons]
      split
      next hmax =>
        have hone : overlayBins (o :: post) [b] =
            ⟨b.upperBound, (o.count + b.count) % 2 ^ 32⟩ :: post := by
          rw [overlayBins]
          cases post <;> rfl
        rw [if_pos (by simp), hone]
      next hfinite =>
        have hlen : (pre ++ [(⟨b.upperBound, (o.count + b.count) % 2 ^ 32⟩ : Bin)]).length =
            pre.length + 1 := by simp
        have hrec := @ih { out with
            bins := pre ++ ⟨b.upperBound, (o.count + b.count) % 2 ^ 32⟩ :: post }
          (pre ++ [⟨b.upperBound, (o.count + b.count) % 2 ^ 32⟩]) post
          (by rw [hlen]; exact hdrop') (by simp)
        rw [hlen] at hrec
        rw [hrec]
        simp only [List.length_cons, Nat.add_le_add_iff_right, overlayBins, List.append_assoc,
          List.singleton_append]

/-- All slots have the bounds that the metric was defined with. -/
def CustomSlots (slots : List Histogram) (bounds : List ℕ) : Prop :=
  ∀ h ∈ slots, h.hType = .custom ∧ h.bins.length = h.nBins ∧ usedBounds h.bins = bounds

theorem histogramGet_custom {bounds : List ℕ} (slots : List Histogram) :
    ∀ {out : Histogram}, CustomSlots slots bounds → bounds.length ≤ out.bins.length →
      out.sum < 2 ^ 64 →
      histogramGet slots out = some { out with
        bins := slots.foldl (fun p h => overlayBins p (usedBins h.bins)) out.bins
        sum := (out.sum + (slots.map (·.sum)).sum) % 2 ^ 64 } := by
  induction slots with
  | nil =>
    intro out _ _ hlt
    simp only [histogramGet, List.foldl_nil, List.map_nil, List.sum_nil, Nat.add_zero,
      Nat.mod_eq_of_lt hlt]
  | cons h slots ih =>
    intro out hslots hlen hlt
    obtain ⟨htype, hlenh, hbounds⟩ := hslots h (List.mem_cons_self ..)
    have hused : (usedBins h.bins).length = bounds.length := by
      rw [← hbounds, usedBounds, List.length_map]
    have hmerge := @mergeBins_custom h.bins h.bins out [] out.bins rfl rfl
    rw [hused, if_pos hlen, List.nil_append, List.length_nil] at hmerge
    rw [histogramGet, htype, ← hlenh, hmerge]
    simp only
    rw [ih (fun x hx => hslots x (List.mem_cons_of_mem _ hx))
      (by simp only [overlayBins_length]; exact hlen) (Nat.mod_lt _ (by omega))]
    simp only [List.foldl_cons, List.map_cons, List.sum_cons, Option.some.injEq,
      Histogram.mk.injEq, true_and, and_true]
    omega

/-- More bounds than bins: the merge writes behind the object. -/
theorem histogramGet_custom_none {bounds : List ℕ} {h : Histogram} {slots : List Histogram}
    {out : Histogram} (hslots : CustomSlots (h :: slots) bounds)
    (hlen : out.bins.length < bounds.length) : histogramGet (h :: slots) out = none := by
  obtain ⟨htype, hlenh, hbounds⟩ := hslots h (List.mem_cons_self ..)
  have hused : (usedBins h.bins).length = bounds.length := by
    rw [← hbounds, usedBounds, List.length_map]
  have hmerge := @mergeBins_custom h.bins h.bins out [] out.bins rfl rfl
  rw [hused, if_neg (Nat.not_le.mpr hlen), List.length_nil] at hmerge
  rw [histogramGet, htype, ← hlenh, hmerge]

theorem foldl_overlay_length (slots : List Histogram) : ∀ p : List Bin,
    (slots.foldl (fun p h => overlayBins p (usedBins h.bins)) p).length = p.length := by
  induction slots with
  | nil => intro p; rfl
  | cons h slots ih =>
    intro p
    rw [List.foldl_cons, ih, overlayBins_length]

/-- Over bins without counts the result is the same, whatever is behind. -/
theorem foldl_overlay {n : ℕ} (slots : List Histogram) :
    ∀ {p q : List Bin}, (∀ h ∈ slots, (usedBins h.bins).length = n) → n ≤ p.length → n ≤ q.length →
      p.take n = q.take n →
      (slots.foldl (fun p h => overlayBins p (usedBins h.bins)) p).take n =
        (slots.foldl (fun p h => overlayBins p (usedBins h.bins)) q).take n := by
  induction slots with
  | nil => intro p q _ _ _ heq; exact heq
  | cons h slots ih =>
    intro p q hlen hp hq heq
    have hh := hlen h (List.mem_cons_self ..)
    refine ih (fun x hx => hlen x (List.mem_cons_of_mem _ hx)) ?_ ?_ ?_
    · rw [overlayBins_length]
      exact hp
    · rw [overlayBins_length]
      exact hq
    · rw [← hh]
      apply overlayBins_take
      · rw [hh]
        exact hp
      · rw [hh]
        exact hq
      · rw [hh, heq]

theorem foldl_overlay_spec {bounds : List ℕ} (slots : List Histogram) :
    ∀ {p : List Bin} {h : Histogram}, CustomSlots (h :: slots) bounds → bounds.length ≤ p.length →
      (((h :: slots).foldl (fun p h => overlayBins p (usedBins h.bins)) p).take
          bounds.length).map (·.upperBound) = bounds ∧
        ∀ b ∈ ((h :: slots).foldl (fun p h => overlayBins p (usedBins h.bins)) p).take
          bounds.length, b.count < 2 ^ 32 := by
  induction slots with
  | nil =>
    intro p h hslots hlen
    obtain ⟨-, -, hbounds⟩ := hslots h (List.mem_cons_self ..)
    have hused : (usedBins h.bins).length = bounds.length := by
      rw [← hbounds, usedBounds, List.length_map]
    have hspec := overlayBins_spec (usedBins h.bins) (p := p) (by rw [hused]; exact hlen)
    rw [hused] at hspec
    refine ⟨?_, hspec.2⟩
    rw [List.foldl_cons, List.foldl_nil, hspec.1]
    exact hbounds
  | cons x slots ih =>
    intro p h hslots hlen
    rw [List.foldl_cons]
    refine ih (fun y hy => hslots y (List.mem_cons_of_mem _ hy)) ?_
    rw [overlayBins_length]
    exact hlen

/-- The bins in use are those with the bounds of the metric. -/
theorem usedBins_take {bins : List Bin} {init : List ℕ} (hinit : ∀ u ∈ init, u ≠ maxUint32)
    (hbounds : (bins.take (init.length + 1)).map (·.upperBound) = init ++ [maxUint32]) :
    usedBins bins = bins.take (init.length + 1) := by
  induction init generalizing bins with
  | nil =>
    cases bins with
    | nil => simp at hbounds
    | cons b bins =>
      have hb : b.upperBound = maxUint32 := by simpa using hbounds
      rw [usedBins_cons, if_pos hb]
      rfl
  | cons u init ih =>
    cases bins with
    | nil => simp at hbounds
    | cons b bins =>
      simp only [List.length_cons, List.take_succ_cons, List.map_cons, List.cons_append,
        List.cons.injEq] at hbounds
      have hb : b.upperBound ≠ maxUint32 := by
        rw [hbounds.1]
        exact hinit u (List.mem_cons_self ..)
      rw [usedBins_cons, if_neg hb, List.length_cons, List.take_succ_cons,
        ih (fun v hv => hinit v (List.mem_cons_of_mem _ hv)) hbounds.2]

/-! ### Old slots and new slots -/

/-- The slots of a histogram of the old cycle. -/
inductive HistogramSlots : List Histogram → Prop
  | log2 (slots : List Histogram) (hslots : ∀ h ∈ slots, h.hType = .log2 ∧ h.bins.length = h.nBins) :
      HistogramSlots slots
  | custom (init : List ℕ) (h : Histogram) (slots : List Histogram)
      (hinit : ∀ u ∈ init, u ≠ maxUint32) (hlen : init.length < binsMax)
      (hslots : CustomSlots (h :: slots) (init ++ [maxUint32])) : HistogramSlots (h :: slots)

/-- The bounds that a merge of LOG2 slots has to put. -/
def putBounds (slots : List Histogram) : Finset ℕ :=
  insert maxUint32 ((binStream slots).map fun b => binLog2UpperBound b.upperBound).toFinset

/-- What can be folded into a LOG2 histogram of 5 bins and be merged again. -/
def HistogramSurvives (slots : List Histogram) : Prop :=
  (∀ h ∈ slots, h.hType = .log2 → (putBounds slots).card ≤ binsInit ∧ 2 ^ 31 ∉ putBounds slots) ∧
    ∀ h ∈ slots, h.hType = .custom → (usedBounds h.bins).length ≤ binsInit ∧
      Arranged (usedBounds h.bins) ∧ ∀ u ∈ usedBounds h.bins, binLog2UpperBound u = u

/-- The old slots are folded, and the new ones show what the old ones did. -/
def Regained (slots : List Histogram) (workers : ℕ) : Prop :=
  ∃ h out out', histogramGet slots newLog2 = some h ∧
    histogramGet slots histogramBuffer = some out ∧
    histogramGet (h :: List.replicate workers newLog2) histogramBuffer = some out' ∧
    usedBins out'.bins = usedBins out.bins ∧ out'.sum = out.sum

theorem empties_stream (workers : ℕ) :
    ∀ b ∈ binStream (List.replicate workers newLog2), b = ⟨maxUint32, 0⟩ := by
  intro b hb
  obtain ⟨h, hh, hb⟩ := List.mem_flatMap.mp hb
  rw [List.eq_of_mem_replicate hh] at hb
  exact List.mem_singleton.mp hb

theorem usedBins_length_le (bins : List Bin) : (usedBins bins).length ≤ bins.length := by
  induction bins with
  | nil => exact Nat.le_refl _
  | cons b bins ih =>
    rw [usedBins_cons]
    split
    · simp
    · exact Nat.succ_le_succ ih

/-- The merge of a folded histogram and empty ones. -/
theorem get_folded {h : Histogram} (hlog : h.hType = .log2) (hlen : h.bins.length = h.nBins)
    (hn : h.nBins = binsInit) (workers : ℕ) :
    ∃ out', histogramGet (h :: List.replicate workers newLog2) histogramBuffer = some out' ∧
      usedBins out'.bins =
        (absorbBounds [maxUint32] (usedBins h.bins ++ binStream (List.replicate workers newLog2))).map
          (fun u => ⟨u, countAt binLog2UpperBound
            (usedBins h.bins ++ binStream (List.replicate workers newLog2)) u % 2 ^ 32⟩) ∧
      out'.sum = h.sum % 2 ^ 64 := by
  have hslots : ∀ x ∈ h :: List.replicate workers newLog2,
      x.hType = .log2 ∧ x.bins.length = x.nBins := by
    intro x hx
    rcases List.mem_cons.mp hx with rfl | hx
    · exact ⟨hlog, hlen⟩
    · rw [List.eq_of_mem_replicate hx]
      exact ⟨rfl, rfl⟩
  have hstream : binStream (h :: List.replicate workers newLog2) =
      usedBins h.bins ++ binStream (List.replicate workers newLog2) := rfl
  have hput : ∀ b ∈ binStream (h :: List.replicate workers newLog2), binLog2UpperBound b.upperBound ∈
      maxUint32 :: (usedBins h.bins).map fun b => binLog2UpperBound b.upperBound := by
    intro b hb
    rw [hstream] at hb
    rcases List.mem_append.mp hb with hb | hb
    · exact List.mem_cons_of_mem _ (List.mem_map.mpr ⟨b, hb, rfl⟩)
    · rw [empties_stream workers b hb]
      exact List.mem_cons.mpr (.inl binLog2UpperBound_max)
  have hroom : (maxUint32 :: (usedBins h.bins).map fun b => binLog2UpperBound b.upperBound).length ≤
      histogramBuffer.nBins := by
    have hle := usedBins_length_le h.bins
    rw [hlen, hn] at hle
    rw [List.length_cons, List.length_map]
    exact Nat.le_trans (Nat.succ_le_succ hle) (by decide)
  obtain ⟨out', hget, t, -, -, hsum⟩ := histogramGet_log2 _ hslots histogramBuffer_table
    (by simp) hroom (by decide) hput
  refine ⟨out', hget, ?_, ?_⟩
  · rw [t.used, hstream]
    apply List.map_congr_left
    intro u _
    rw [absorbCounts_eq u _ _ (by decide), Nat.zero_add]
  · have hzero : ((List.replicate workers newLog2).map (·.sum)).sum = 0 := by
      rw [List.map_replicate]
      exact List.sum_eq_zero fun x hx => List.eq_of_mem_replicate hx
    rw [hsum, List.map_cons, List.sum_cons, hzero, Nat.add_zero,
      show histogramBuffer.sum = 0 from rfl, Nat.zero_add]

theorem mem_putBounds {slots : List Histogram} {u : ℕ} :
    u ∈ putBounds slots ↔ u ∈ absorbBounds [maxUint32] (binStream slots) := by
  rw [putBounds, Finset.mem_insert, List.mem_toFinset, List.mem_map, mem_absorbBounds,
    List.mem_singleton]

/-- Five bins are enough: both merges of the old slots leave one table. -/
theorem log2_folded {slots : List Histogram}
    (hslots : ∀ h ∈ slots, h.hType = .log2 ∧ h.bins.length = h.nBins)
    (hcard : (putBounds slots).card ≤ binsInit) {start : Histogram}
    (hstart : Table start [maxUint32] fun _ => 0) (hn : binsInit ≤ start.nBins)
    (hsum : start.sum = 0) :
    ∃ out, histogramGet slots start = some out ∧
      Table out (absorbBounds [maxUint32] (binStream slots))
        (absorbCounts (fun _ => 0) (binStream slots)) ∧
      out.hType = start.hType ∧ out.nBins = start.nBins ∧
      out.sum = (slots.map (·.sum)).sum % 2 ^ 64 := by
  have hmax : [maxUint32] ⊆ (putBounds slots).toList := by
    intro u hu
    rw [Finset.mem_toList, List.mem_singleton.mp hu]
    exact Finset.mem_insert_self ..
  have hlen : (putBounds slots).toList.length ≤ start.nBins := by
    rw [Finset.length_toList]
    exact Nat.le_trans hcard hn
  have hput : ∀ b ∈ binStream slots,
      binLog2UpperBound b.upperBound ∈ (putBounds slots).toList := by
    intro b hb
    rw [Finset.mem_toList, mem_putBounds, mem_absorbBounds]
    exact .inr ⟨b, hb, rfl⟩
  obtain ⟨out, hget, t, htype, hn', hs⟩ := histogramGet_log2 slots hslots hstart hmax hlen
    (by rw [hsum]; decide) hput
  rw [hsum, Nat.zero_add] at hs
  exact ⟨out, hget, t, htype, hn', hs⟩

/-- More than five bounds do not come back. -/
theorem log2_lost {slots : List Histogram} {workers : ℕ}
    (hslots : ∀ h ∈ slots, h.hType = .log2 ∧ h.bins.length = h.nBins)
    (hcard : binsInit < (putBounds slots).card) : ¬ Regained slots workers := by
  rintro ⟨h, out, out', hfold, hbefore, hafter, hbins, -⟩
  obtain ⟨h₁, bs, cnt, hfold₁, t, ha⟩ := histogramGet_absorbed slots hslots newLog2_table
  obtain rfl : h = h₁ := Option.some.inj (hfold.symm.trans hfold₁)
  obtain ⟨out₁, bs₁, cnt₁, hbefore₁, t₁, ha₁⟩ :=
    histogramGet_absorbed slots hslots histogramBuffer_table
  obtain rfl : out = out₁ := Option.some.inj (hbefore.symm.trans hbefore₁)
  have hn : h.nBins = binsInit := ha.nBins
  obtain ⟨out₂, hafter₂, hused, -⟩ := get_folded ha.hType t.length hn workers
  obtain rfl : out' = out₂ := Option.some.inj (hafter.symm.trans hafter₂)
  -- at most five bins come out of the new slots
  have hfew : (usedBins out'.bins).length ≤ binsInit := by
    rw [hused, List.length_map]
    have hsub : absorbBounds [maxUint32]
        (usedBins h.bins ++ binStream (List.replicate workers newLog2)) ⊆
        bs.map binLog2UpperBound := by
      intro u hu
      have hmax : maxUint32 ∈ bs.map binLog2UpperBound :=
        List.mem_map.mpr ⟨_, t.arranged.max_mem, binLog2UpperBound_max⟩
      rcases (mem_absorbBounds _ _).mp hu with hu | ⟨b, hb, rfl⟩
      · rw [List.mem_singleton.mp hu]
        exact hmax
      · rcases List.mem_append.mp hb with hb | hb
        · have hbs : b.upperBound ∈ usedBounds h.bins := mem_usedBounds.mpr ⟨b, hb, rfl⟩
          rw [t.bounds] at hbs
          exact List.mem_map.mpr ⟨_, hbs, rfl⟩
        · rw [empties_stream workers b hb]
          exact hmax
    have hle := (Arranged.empty.absorb.nodup.subperm hsub).length_le
    rw [List.length_map] at hle
    exact Nat.le_trans hle (by rw [← hn]; exact t.room)
  have hmany : binsInit < (usedBins out.bins).length := by
    rw [t₁.used, List.length_map]
    rcases ha₁.all_or_full with hall | hfull
    · have hsub : putBounds slots ⊆ bs₁.toFinset := by
        intro u hu
        rw [List.mem_toFinset]
        rcases (mem_absorbBounds _ _).mp (mem_putBounds.mp hu) with hu | ⟨b, hb, rfl⟩
        · exact ha₁.kept hu
        · exact hall b hb
      have hle := Finset.card_le_card hsub
      rw [List.toFinset_card_of_nodup t₁.arranged.nodup] at hle
      omega
    · rw [hfull]
      decide
  rw [hbins] at hfew
  omega

theorem regained_log2_iff {slots : List Histogram} {workers : ℕ}
    (hslots : ∀ h ∈ slots, h.hType = .log2 ∧ h.bins.length = h.nBins) :
    Regained slots workers ↔
      (putBounds slots).card ≤ binsInit ∧ 2 ^ 31 ∉ putBounds slots := by
  rcases Nat.lt_or_ge binsInit (putBounds slots).card with hmany | hcard
  · constructor
    · intro h
      exact absurd h (log2_lost hslots hmany)
    · intro h
      exact absurd h.1 (Nat.not_le.mpr hmany)
  · obtain ⟨h, hfold, t, htype, hn, hs⟩ :=
      log2_folded hslots hcard newLog2_table (Nat.le_refl _) rfl
    obtain ⟨out, hbefore, tout, -, -, hsout⟩ :=
      log2_folded hslots hcard histogramBuffer_table (by decide) rfl
    obtain ⟨out', hafter, hused, hs'⟩ := get_folded htype t.length hn workers
    have hsame : usedBins out.bins = usedBins h.bins := by rw [tout.used, t.used]
    have hcounts : ∀ b ∈ usedBins h.bins, b.count < 2 ^ 32 := by
      intro b hb
      rw [t.used] at hb
      obtain ⟨u, -, rfl⟩ := List.mem_map.mp hb
      simp only
      rw [absorbCounts_eq u _ _ (by decide)]
      exact Nat.mod_lt _ (by omega)
    have hremerge := remerge_iff hcounts (empties_stream workers)
    have hmem : ∀ b ∈ usedBins h.bins, b.upperBound ∈ absorbBounds [maxUint32] (binStream slots) := by
      intro b hb
      rw [← t.bounds]
      exact mem_usedBounds.mpr ⟨b, hb, rfl⟩
    constructor
    · rintro ⟨h₁, out₁, out₁', hfold₁, hbefore₁, hafter₁, hbins, -⟩
      obtain rfl : h = h₁ := Option.some.inj (hfold.symm.trans hfold₁)
      obtain rfl : out = out₁ := Option.some.inj (hbefore.symm.trans hbefore₁)
      obtain rfl : out' = out₁' := Option.some.inj (hafter.symm.trans hafter₁)
      rw [hused, hsame] at hbins
      refine ⟨hcard, ?_⟩
      intro hlarge
      rw [mem_putBounds, ← t.bounds] at hlarge
      obtain ⟨b, hb, heq⟩ := mem_usedBounds.mp hlarge
      have hfixed := (hremerge.mp hbins).2 b hb
      rw [heq] at hfixed
      exact absurd hfixed (by decide)
    · rintro ⟨-, hlarge⟩
      refine ⟨h, out, out', hfold, hbefore, hafter, ?_, ?_⟩
      · rw [hused, hsame]
        apply hremerge.mpr
        refine ⟨?_, ?_⟩
        · have harranged := t.arranged
          rw [← t.bounds] at harranged
          exact harranged
        · intro b hb
          apply binLog2UpperBound_fixed (mem_absorb_power (hmem b hb))
          intro heq
          apply hlarge
          rw [← heq, mem_putBounds]
          exact hmem b hb
      · rw [hs', hs, hsout, Nat.mod_mod]

theorem regained_custom_iff {init : List ℕ} {h₀ : Histogram} {slots : List Histogram} {workers : ℕ}
    (hinit : ∀ u ∈ init, u ≠ maxUint32) (hlen : init.length < binsMax)
    (hslots : CustomSlots (h₀ :: slots) (init ++ [maxUint32])) :
    Regained (h₀ :: slots) workers ↔
      (init ++ [maxUint32]).length ≤ binsInit ∧ Arranged (init ++ [maxUint32]) ∧
        ∀ u ∈ init ++ [maxUint32], binLog2UpperBound u = u := by
  have hm : (init ++ [maxUint32]).length = init.length + 1 := by simp
  rcases Nat.lt_or_ge binsInit (init ++ [maxUint32]).length with hmany | hfew
  · have hnone : histogramGet (h₀ :: slots) newLog2 = none :=
      histogramGet_custom_none hslots hmany
    constructor
    · rintro ⟨h, -, -, hfold, -⟩
      rw [hnone] at hfold
      cases hfold
    · intro h
      exact absurd h.1 (Nat.not_le.mpr hmany)
  · have hfold := @histogramGet_custom (init ++ [maxUint32]) (h₀ :: slots) newLog2 hslots hfew
      (by decide)
    have hbefore := @histogramGet_custom (init ++ [maxUint32]) (h₀ :: slots) histogramBuffer hslots
      (by rw [hm]; exact hlen) (by decide)
    rw [hm] at hfew
    have hstart : newLog2.bins.take (init.length + 1) =
        histogramBuffer.bins.take (init.length + 1) := by
      have hzero : init.length ≤ binsInit - 1 := by omega
      simp only [newLog2, histogramBuffer, List.take_succ_cons, List.take_replicate]
      rw [Nat.min_eq_left hzero, Nat.min_eq_left (Nat.le_trans hzero (by decide))]
    have hlens : ∀ h ∈ h₀ :: slots, (usedBins h.bins).length = init.length + 1 := by
      intro h hh
      rw [← hm, ← (hslots h hh).2.2, usedBounds, List.length_map]
    have hsame := foldl_overlay (h₀ :: slots) (p := newLog2.bins) (q := histogramBuffer.bins) hlens
      hfew (Nat.le_trans hfew (by decide)) hstart
    have hspec := foldl_overlay_spec slots (p := newLog2.bins) hslots (by rw [hm]; exact hfew)
    rw [hm] at hspec
    generalize hP : (h₀ :: slots).foldl (fun p h => overlayBins p (usedBins h.bins)) newLog2.bins =
      foldBins at *
    generalize hQ : (h₀ :: slots).foldl (fun p h => overlayBins p (usedBins h.bins))
      histogramBuffer.bins = outBins at *
    have husedP := usedBins_take hinit hspec.1
    have husedQ : usedBins outBins = usedBins foldBins := by
      have hbounds := hspec.1
      rw [hsame] at hbounds
      rw [usedBins_take hinit hbounds, husedP, hsame]
    have hlenP : foldBins.length = binsInit := by
      rw [← hP, foldl_overlay_length]
      rfl
    obtain ⟨out', hafter, hused, hs'⟩ := get_folded (h := { newLog2 with
      bins := foldBins, sum := (newLog2.sum + ((h₀ :: slots).map (·.sum)).sum) % 2 ^ 64 })
      rfl hlenP rfl workers
    simp only at hused hs'
    have hcounts : ∀ b ∈ usedBins foldBins, b.count < 2 ^ 32 := by
      rw [husedP]
      exact hspec.2
    have hremerge := remerge_iff hcounts (empties_stream workers)
    have hboundsP : (usedBins foldBins).map (·.upperBound) = init ++ [maxUint32] := by
      rw [husedP]
      exact hspec.1
    have hfixed : (∀ b ∈ usedBins foldBins, binLog2UpperBound b.upperBound = b.upperBound) ↔
        ∀ u ∈ init ++ [maxUint32], binLog2UpperBound u = u := by
      rw [← hboundsP, List.forall_mem_map]
    rw [hboundsP, hfixed] at hremerge
    rw [hm, and_iff_right hfew, ← hremerge]
    constructor
    · rintro ⟨h, out, out₁, hfold₁, hbefore₁, hafter₁, hbins, -⟩
      rw [hfold] at hfold₁
      rw [hbefore] at hbefore₁
      rw [← Option.some.inj hfold₁, hafter] at hafter₁
      rw [← Option.some.inj hafter₁, ← Option.some.inj hbefore₁, husedQ, hused] at hbins
      exact hbins
    · intro heq
      refine ⟨_, _, out', hfold, hbefore, hafter, ?_, ?_⟩
      · simp only
        rw [hused, husedQ, heq]
      · rw [hs']
        exact Nat.mod_mod _ _

theorem regained_iff {slots : List Histogram} (hslots : HistogramSlots slots) (hne : slots ≠ [])
    (workers : ℕ) : Regained slots workers ↔ HistogramSurvives slots := by
  cases hslots with
  | log2 slots hslots =>
    rw [regained_log2_iff hslots]
    obtain ⟨h, rest, rfl⟩ := List.exists_cons_of_ne_nil hne
    constructor
    · intro hs
      refine ⟨fun _ _ _ => hs, ?_⟩
      intro x hx hcustom
      rw [(hslots x hx).1] at hcustom
      cases hcustom
    · intro hs
      exact hs.1 h (List.mem_cons_self ..) (hslots h (List.mem_cons_self ..)).1
  | custom init h slots hinit hlen hslots =>
    rw [regained_custom_iff hinit hlen hslots]
    constructor
    · intro hs
      constructor
      · intro x hx hlog
        rw [(hslots x hx).1] at hlog
        cases hlog
      · intro x hx _
        rw [(hslots x hx).2.2]
        exact hs
    · intro hs
      have hh := hs.2 h (List.mem_cons_self ..) (hslots h (List.mem_cons_self ..)).1
      rw [(hslots h (List.mem_cons_self ..)).2.2] at hh
      exact hh

end NgxWasm.Metrics
