import NgxWasm.Metrics.HistogramRecord
import Mathlib.Algebra.BigOperators.Group.List.Basic
import Mathlib.Data.Finset.Sort

/-!
# Merging histograms

`ngx_wa_metrics_histogram_get` puts the bounds of each slot through
`histogram_log2_bin` again. A merge is a fold over the bins of all slots, and the
bounds it leaves are their images under the bound function, the first finite one in
front.
-/

namespace NgxWasm.Metrics

open NgxWasm.Lib.Links NgxWasm.Lib.Run

/-- The bins that a merge reads, in its order. -/
def binStream (slots : List Histogram) : List Bin := slots.flatMap fun h => usedBins h.bins

/-- The bins among `l` whose bound is sent to `u`, counted together. -/
def countAt (g : ℕ → ℕ) (l : List Bin) (u : ℕ) : ℕ :=
  (l.map fun b => if g b.upperBound = u then b.count else 0).sum

/-- The first finite one of some bounds. -/
def firstFinite (bounds : List ℕ) : ℕ := (bounds.find? (· != maxUint32)).getD maxUint32

/-! ### Folds -/

def absorbBounds (bs : List ℕ) (l : List Bin) : List ℕ :=
  l.foldl (fun bs b => Table.putBound (binLog2UpperBound b.upperBound) bs) bs

def absorbCounts (cnt : ℕ → ℕ) (l : List Bin) : ℕ → ℕ :=
  l.foldl (fun cnt b => bump cnt (binLog2UpperBound b.upperBound) b.count) cnt

theorem usedBins_cons (b : Bin) (l : List Bin) :
    usedBins (b :: l) = if b.upperBound = maxUint32 then [b] else b :: usedBins l := by
  simp only [usedBins, upto, beq_iff_eq]

theorem mem_absorbBounds {u : ℕ} (l : List Bin) : ∀ bs : List ℕ,
    u ∈ absorbBounds bs l ↔ u ∈ bs ∨ ∃ b ∈ l, binLog2UpperBound b.upperBound = u := by
  induction l with
  | nil => simp [absorbBounds]
  | cons b l ih =>
    intro bs
    have hfold : absorbBounds bs (b :: l) =
        absorbBounds (Table.putBound (binLog2UpperBound b.upperBound) bs) l := rfl
    rw [hfold, ih, mem_putBound, List.exists_mem_cons_iff]
    constructor
    · rintro ((h | h) | h)
      · exact .inr (.inl h.symm)
      · exact .inl h
      · exact .inr (.inr h)
    · rintro (h | h | h)
      · exact .inl (.inr h)
      · exact .inl (.inl h.symm)
      · exact .inr h

theorem absorbCounts_eq (u : ℕ) (l : List Bin) : ∀ cnt : ℕ → ℕ, cnt u < 2 ^ 32 →
    absorbCounts cnt l u = (cnt u + countAt binLog2UpperBound l u) % 2 ^ 32 := by
  induction l with
  | nil =>
    intro cnt hlt
    simp only [absorbCounts, countAt, List.foldl_nil, List.map_nil, List.sum_nil, Nat.add_zero]
    exact (Nat.mod_eq_of_lt hlt).symm
  | cons b l ih =>
    intro cnt hlt
    have hfold : absorbCounts cnt (b :: l) =
        absorbCounts (bump cnt (binLog2UpperBound b.upperBound) b.count) l := rfl
    have hcount : countAt binLog2UpperBound (b :: l) u =
        (if binLog2UpperBound b.upperBound = u then b.count else 0) +
          countAt binLog2UpperBound l u := by
      rw [countAt, List.map_cons, List.sum_cons]
      rfl
    rw [hfold, hcount]
    by_cases hu : binLog2UpperBound b.upperBound = u
    · rw [hu, ih _ (by rw [bump_self]; omega), bump_self, if_pos rfl]
      omega
    · rw [ih _ (by rw [bump_of_ne fun h => hu h.symm]; exact hlt),
        bump_of_ne fun h => hu h.symm, if_neg hu, Nat.zero_add]

theorem Arranged.putBound {bs : List ℕ} {n : ℕ} (h : Arranged bs) :
    Arranged (Table.putBound (binLog2UpperBound n) bs) := by
  rw [Table.putBound]
  split
  next => exact h
  next hnew =>
    refine h.insert (Nat.lt_of_le_of_ne (binLog2UpperBound_le n) ?_) hnew
    intro heq
    rw [heq] at hnew
    exact hnew h.max_mem

theorem Arranged.absorb {l : List Bin} : ∀ {bs : List ℕ}, Arranged bs → Arranged (absorbBounds bs l) := by
  induction l with
  | nil => intro bs h; exact h
  | cons b l ih => intro bs h; exact ih h.putBound

/-- The first bound stays in front. -/
theorem absorbBounds_head (l : List Bin) : ∀ {bs : List ℕ}, Arranged bs →
    (absorbBounds bs l).headD maxUint32 =
      if bs.headD maxUint32 = maxUint32 then
        firstFinite (l.map fun b => binLog2UpperBound b.upperBound)
      else bs.headD maxUint32 := by
  induction l with
  | nil =>
    intro bs h
    have hnone : firstFinite ([] : List ℕ) = maxUint32 := rfl
    simp only [absorbBounds, List.foldl_nil, List.map_nil, hnone]
    split
    next heq => exact heq
    next => rfl
  | cons b l ih =>
    intro bs h
    have hfold : absorbBounds bs (b :: l) =
        absorbBounds (Table.putBound (binLog2UpperBound b.upperBound) bs) l := rfl
    rw [hfold, ih h.putBound, List.map_cons]
    by_cases hmax : binLog2UpperBound b.upperBound = maxUint32
    · have hput : Table.putBound maxUint32 bs = bs := if_pos h.max_mem
      have hskip : firstFinite (maxUint32 :: l.map fun b => binLog2UpperBound b.upperBound) =
          firstFinite (l.map fun b => binLog2UpperBound b.upperBound) := rfl
      rw [hmax, hput, hskip]
    · have hfirst : firstFinite (binLog2UpperBound b.upperBound ::
          l.map fun b => binLog2UpperBound b.upperBound) = binLog2UpperBound b.upperBound := by
        rw [firstFinite, List.find?_cons_of_pos (by simpa using hmax)]
        rfl
      rw [hfirst]
      cases h with
      | empty =>
        have hput : Table.putBound (binLog2UpperBound b.upperBound) [maxUint32] =
            [binLog2UpperBound b.upperBound, maxUint32] := by
          rw [Table.putBound, if_neg (by simpa using hmax)]
          rfl
        rw [hput, List.headD_cons, if_neg hmax, List.headD_cons, if_pos rfl]
      | cons c init hfinite hnew hsorted =>
        have hne : init ++ [maxUint32] ≠ [] := by simp
        have hput : (Table.putBound (binLog2UpperBound b.upperBound)
            (c :: (init ++ [maxUint32]))).headD maxUint32 = c := by
          rw [Table.putBound]
          split
          · rfl
          · rw [insertBound_cons _ c hne]
            rfl
        rw [hput, List.headD_cons, if_neg (Nat.ne_of_lt hfinite), if_neg (Nat.ne_of_lt hfinite)]

/-- A table is determined by its bounds and the first of them. -/
theorem Arranged.ext {as bs : List ℕ} (ha : Arranged as) (hb : Arranged bs)
    (hmem : ∀ u, u ∈ as ↔ u ∈ bs) (hhead : as.headD maxUint32 = bs.headD maxUint32) : as = bs := by
  have hperm : as.Perm bs := (List.perm_ext_iff_of_nodup ha.nodup hb.nodup).mpr hmem
  cases ha with
  | empty => exact List.singleton_perm.mp hperm
  | cons a init hfinite hnew hsorted =>
    cases hb with
    | empty => exact List.perm_singleton.mp hperm
    | cons b init' hfinite' hnew' hsorted' =>
      rw [List.headD_cons, List.headD_cons] at hhead
      subst hhead
      have htail := hperm.cons_inv
      rw [htail.eq_of_pairwise (fun x y _ _ hxy hyx => absurd hyx (Nat.lt_asymm hxy)) hsorted
        hsorted']

theorem Arranged.sorted_iff {bs : List ℕ} (h : Arranged bs) :
    bs.Pairwise (· < ·) ↔ ∀ u ∈ bs, bs.headD maxUint32 ≤ u := by
  cases h with
  | empty => simp
  | cons b init hfinite hnew hsorted =>
    rw [List.pairwise_cons, List.headD_cons]
    constructor
    · rintro ⟨hb, -⟩ u hu
      rcases List.mem_cons.mp hu with rfl | hu
      · exact Nat.le_refl _
      · exact Nat.le_of_lt (hb u hu)
    · intro hle
      refine ⟨?_, hsorted⟩
      intro u hu
      refine Nat.lt_of_le_of_ne (hle u (List.mem_cons_of_mem _ hu)) ?_
      rintro rfl
      rcases List.mem_append.mp hu with hu | hu
      · exact hnew hu
      · exact absurd (List.mem_singleton.mp hu) (Nat.ne_of_lt hfinite)

/-! ### One slot, all slots -/

/-- All bounds that are going to be put lie among the entries of one list. -/
theorem room_of_subset {h : Histogram} {bs all : List ℕ} {ub : ℕ} {out alloc : Bool}
    (hnodup : bs.Nodup) (hsub : bs ⊆ all) (hub : ub ∈ all) (hlen : all.length ≤ h.nBins) :
    ub ∈ bs ∨ Table.Room h bs out alloc := by
  by_cases hmem : ub ∈ bs
  · exact .inl hmem
  · have hmore : (ub :: bs).length ≤ all.length :=
      ((List.nodup_cons.mpr ⟨hmem, hnodup⟩).subperm (List.cons_subset.mpr ⟨hub, hsub⟩)).length_le
    rw [List.length_cons] at hmore
    exact .inr (.inl (by omega))

theorem mergeBins_log2 {all : List Bin} {bounds : List ℕ} (rest : List Bin) :
    ∀ {j : ℕ} {out : Histogram} {bs : List ℕ} {cnt : ℕ → ℕ}, all.drop j = rest →
      Table out bs cnt → bs ⊆ bounds → bounds.length ≤ out.nBins →
      (∀ b ∈ usedBins rest, binLog2UpperBound b.upperBound ∈ bounds) →
      ∃ out', mergeBins .log2 all rest.length j out = some out' ∧
        Table out' (absorbBounds bs (usedBins rest)) (absorbCounts cnt (usedBins rest)) ∧
        out'.hType = out.hType ∧ out'.nBins = out.nBins ∧ out'.sum = out.sum := by
  induction rest with
  | nil =>
    intro j out bs cnt _ t _ _ _
    exact ⟨out, rfl, t, rfl, rfl, rfl⟩
  | cons b rest ih =>
    intro j out bs cnt hdrop t hsub hlen hall
    obtain ⟨hget, hdrop'⟩ := getElem?_of_drop hdrop
    have hb : binLog2UpperBound b.upperBound ∈ bounds := by
      apply hall
      rw [usedBins_cons]
      split
      · exact List.mem_singleton_self _
      · exact List.mem_cons_self ..
    obtain ⟨h₁, i, out₁, hbin, hadd, htype, hsum, hn, hcase⟩ :=
      t.put b.upperBound b.count false false
    have hroom : binLog2UpperBound b.upperBound ∈ bs ∨ Table.Room out bs false false :=
      room_of_subset t.arranged.nodup hsub hb hlen
    have t₁ := (hcase.resolve_right fun hno => hno.1.2 (hroom.resolve_left hno.1.1)).2
    rw [List.length_cons, mergeBins, hget, usedBins_cons]
    simp only [mergeBin, hbin, hadd]
    split
    next hmax => exact ⟨out₁, rfl, t₁, htype, hn rfl, hsum⟩
    next hfinite =>
      have hsub₁ : Table.putBound (binLog2UpperBound b.upperBound) bs ⊆ bounds := by
        intro u hu
        rcases mem_putBound.mp hu with rfl | hu
        · exact hb
        · exact hsub hu
      have hall₁ : ∀ x ∈ usedBins rest, binLog2UpperBound x.upperBound ∈ bounds := by
        intro x hx
        apply hall
        rw [usedBins_cons, if_neg hfinite]
        exact List.mem_cons_of_mem _ hx
      obtain ⟨out', hmerge, t', htype', hn', hsum'⟩ :=
        ih hdrop' t₁ hsub₁ (by rw [hn rfl]; exact hlen) hall₁
      exact ⟨out', hmerge, t', htype'.trans htype, hn'.trans (hn rfl), hsum'.trans hsum⟩

/-- A merge of LOG2 slots into a histogram with room for all the bounds. -/
theorem histogramGet_log2 {bounds : List ℕ} (slots : List Histogram) :
    ∀ {out : Histogram} {bs : List ℕ} {cnt : ℕ → ℕ},
      (∀ h ∈ slots, h.hType = .log2 ∧ h.bins.length = h.nBins) →
      Table out bs cnt → bs ⊆ bounds → bounds.length ≤ out.nBins → out.sum < 2 ^ 64 →
      (∀ b ∈ binStream slots, binLog2UpperBound b.upperBound ∈ bounds) →
      ∃ out', histogramGet slots out = some out' ∧
        Table out' (absorbBounds bs (binStream slots)) (absorbCounts cnt (binStream slots)) ∧
        out'.hType = out.hType ∧ out'.nBins = out.nBins ∧
        out'.sum = (out.sum + (slots.map (·.sum)).sum) % 2 ^ 64 := by
  induction slots with
  | nil =>
    intro out bs cnt _ t _ _ hlt _
    refine ⟨out, rfl, t, rfl, rfl, ?_⟩
    exact (Nat.mod_eq_of_lt hlt).symm
  | cons h slots ih =>
    intro out bs cnt hlog t hsub hlen hlt hall
    obtain ⟨htypeh, hlenh⟩ := hlog h (List.mem_cons_self ..)
    have hstream : binStream (h :: slots) = usedBins h.bins ++ binStream slots := rfl
    have hfirst : ∀ b ∈ usedBins h.bins, binLog2UpperBound b.upperBound ∈ bounds := fun b hb =>
      hall b (by rw [hstream]; exact List.mem_append_left _ hb)
    have hrest : ∀ b ∈ binStream slots, binLog2UpperBound b.upperBound ∈ bounds := fun b hb =>
      hall b (by rw [hstream]; exact List.mem_append_right _ hb)
    obtain ⟨out₁, hmerge, t₁, htype₁, hn₁, hsum₁⟩ :=
      mergeBins_log2 h.bins (j := 0) rfl t hsub hlen hfirst
    have hsub₁ : absorbBounds bs (usedBins h.bins) ⊆ bounds := by
      intro u hu
      rcases (mem_absorbBounds _ _).mp hu with hu | ⟨b, hb, rfl⟩
      · exact hsub hu
      · exact hfirst b hb
    obtain ⟨out', hget, t', htype', hn', hsum'⟩ :=
      @ih { out₁ with sum := (out₁.sum + h.sum) % 2 ^ 64 } _ _
        (fun x hx => hlog x (List.mem_cons_of_mem _ hx)) (t₁.withSum _) hsub₁
        (by rw [hn₁]; exact hlen) (Nat.mod_lt _ (by omega)) hrest
    refine ⟨out', ?_, ?_, htype'.trans htype₁, hn'.trans hn₁, ?_⟩
    · rw [histogramGet, htypeh, ← hlenh, hmerge]
      exact hget
    · rw [hstream, absorbBounds, absorbCounts, List.foldl_append, List.foldl_append]
      exact t'
    · rw [hsum', hsum₁, List.map_cons, List.sum_cons]
      simp only
      omega

theorem histogramBuffer_table : Table histogramBuffer [maxUint32] fun _ => 0 where
  bins := rfl
  room := by decide
  limit := by decide
  arranged := .empty
  fresh := fun _ _ => rfl

end NgxWasm.Metrics
