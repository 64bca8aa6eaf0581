import NgxWasm.Metrics.Histogram
import Mathlib.Data.List.Sort
import Mathlib.Logic.Function.Basic
import Mathlib.Tactic.Common

/-!
# The bins of a LOG2 histogram as a table

A histogram stands for a list of bounds and the count of each of them. A new bound goes
in front of the first larger one, but never in front of the first bound: index 0 means
that no larger one was seen.
-/

namespace NgxWasm.Metrics

/-! ### Bounds -/

/-- The index at which a new bound is put. -/
def place (ub : ℕ) : List ℕ → ℕ
  | [] => 0
  | [_] => 0
  | _ :: tail => 1 + (tail.takeWhile fun b => ¬ ub < b).length

def insertBound (ub : ℕ) (bs : List ℕ) : List ℕ :=
  bs.take (place ub bs) ++ ub :: bs.drop (place ub bs)

/-- The largest bound alone, or any bound in front of increasing ones that end with it. -/
inductive Arranged : List ℕ → Prop
  | empty : Arranged [maxUint32]
  | cons (b : ℕ) (init : List ℕ) (hfinite : b < maxUint32) (hnew : b ∉ init)
      (hsorted : (init ++ [maxUint32]).Pairwise (· < ·)) : Arranged (b :: (init ++ [maxUint32]))

theorem orderedInsert_sorted {ub : ℕ} {l : List ℕ} (hl : l.Pairwise (· < ·)) (hn : ub ∉ l) :
    (l.orderedInsert (· < ·) ub).Pairwise (· < ·) := by
  induction l with
  | nil => simp
  | cons b l ih =>
    obtain ⟨hb, hs⟩ := List.pairwise_cons.mp hl
    obtain ⟨hne, hnl⟩ := List.ne_and_not_mem_of_not_mem_cons hn
    rw [List.orderedInsert_cons]
    split
    next hlt =>
      refine List.pairwise_cons.mpr ⟨?_, hl⟩
      intro x hx
      rcases List.mem_cons.mp hx with rfl | hx
      · exact hlt
      · exact Nat.lt_trans hlt (hb x hx)
    next hge =>
      refine List.pairwise_cons.mpr ⟨?_, ih hs hnl⟩
      intro x hx
      rcases (List.mem_orderedInsert _).mp hx with rfl | hx
      · omega
      · exact hb x hx

theorem insertBound_cons (ub b : ℕ) {tail : List ℕ} (h : tail ≠ []) :
    insertBound ub (b :: tail) = b :: tail.orderedInsert (· < ·) ub := by
  obtain ⟨t, tail, rfl⟩ := List.exists_cons_of_ne_nil h
  have hplace : place ub (b :: t :: tail) =
      ((t :: tail).takeWhile fun x => ¬ ub < x).length + 1 := Nat.add_comm ..
  rw [insertBound, hplace, List.take_succ_cons, List.drop_succ_cons, List.cons_append,
    List.orderedInsert_eq_take_drop]
  have hsplit := List.takeWhile_append_dropWhile (p := fun x => ¬ ub < x) (l := t :: tail)
  have hpre : (t :: tail).take ((t :: tail).takeWhile fun x => ¬ ub < x).length =
      (t :: tail).takeWhile fun x => ¬ ub < x :=
    (congrArg (List.take _) hsplit).symm.trans (List.take_left' rfl)
  have hpost : (t :: tail).drop ((t :: tail).takeWhile fun x => ¬ ub < x).length =
      (t :: tail).dropWhile fun x => ¬ ub < x :=
    (congrArg (List.drop _) hsplit).symm.trans (List.drop_left' rfl)
  rw [hpre, hpost]

theorem place_le (ub : ℕ) (bs : List ℕ) : place ub bs ≤ bs.length := by
  match bs with
  | [] => exact Nat.le_refl _
  | [_] => exact Nat.zero_le _
  | _ :: b :: tail =>
    have hle : ((b :: tail).takeWhile fun x => ¬ ub < x).length ≤ (b :: tail).length :=
      (List.takeWhile_sublist _).length_le
    simp only [place, List.length_cons] at hle ⊢
    omega

theorem mem_insertBound {ub u : ℕ} {bs : List ℕ} :
    u ∈ insertBound ub bs ↔ u = ub ∨ u ∈ bs := by
  have hsplit : u ∈ bs ↔ u ∈ bs.take (place ub bs) ∨ u ∈ bs.drop (place ub bs) := by
    rw [← List.mem_append, List.take_append_drop]
  rw [insertBound, List.mem_append, List.mem_cons, hsplit]
  tauto

theorem insertBound_length (ub : ℕ) (bs : List ℕ) :
    (insertBound ub bs).length = bs.length + 1 := by
  have hle := place_le ub bs
  simp only [insertBound, List.length_append, List.length_take, List.length_cons, List.length_drop]
  omega

theorem insertBound_place (ub : ℕ) (bs : List ℕ) :
    (insertBound ub bs)[place ub bs]? = some ub := by
  have hlen : (bs.take (place ub bs)).length = place ub bs := by
    rw [List.length_take]
    exact Nat.min_eq_left (place_le ub bs)
  rw [insertBound, List.getElem?_append_right (Nat.le_of_eq hlen), hlen, Nat.sub_self]
  rfl

namespace Arranged

variable {bs : List ℕ} {ub : ℕ}

theorem ends (h : Arranged bs) :
    ∃ init, bs = init ++ [maxUint32] ∧ ∀ b ∈ init, b < maxUint32 := by
  cases h with
  | empty => exact ⟨[], rfl, fun _ h => absurd h List.not_mem_nil⟩
  | cons b init hfinite hnew hsorted =>
    refine ⟨b :: init, rfl, ?_⟩
    intro x hx
    rcases List.mem_cons.mp hx with rfl | hx
    · exact hfinite
    · exact (List.pairwise_append.mp hsorted).2.2 x hx _ (List.mem_singleton_self _)

theorem max_mem (h : Arranged bs) : maxUint32 ∈ bs := by
  obtain ⟨init, rfl, -⟩ := h.ends
  exact List.mem_append_right _ (List.mem_singleton_self _)

theorem nodup (h : Arranged bs) : bs.Nodup := by
  cases h with
  | empty => exact List.nodup_singleton _
  | cons b init hfinite hnew hsorted =>
    refine List.nodup_cons.mpr ⟨?_, hsorted.imp Nat.ne_of_lt⟩
    intro hb
    rcases List.mem_append.mp hb with hb | hb
    · exact hnew hb
    · exact absurd (List.mem_singleton.mp hb) (Nat.ne_of_lt hfinite)

theorem insert (h : Arranged bs) (hlt : ub < maxUint32) (hn : ub ∉ bs) :
    Arranged (insertBound ub bs) := by
  cases h with
  | empty => exact .cons ub [] hlt List.not_mem_nil (List.pairwise_singleton ..)
  | cons b init hfinite hnew hsorted =>
    have hne : init ++ [maxUint32] ≠ [] := by simp
    obtain ⟨hub, hntail⟩ := List.ne_and_not_mem_of_not_mem_cons hn
    rw [insertBound_cons ub b hne]
    have hsorted' := orderedInsert_sorted hsorted hntail
    -- the new bound stays in front of the largest
    have hends : (init ++ [maxUint32]).orderedInsert (· < ·) ub =
        init.orderedInsert (· < ·) ub ++ [maxUint32] := by
      clear hnew hsorted hntail hsorted' hne hn
      induction init with
      | nil => simp [hlt]
      | cons x init ih =>
        rw [List.cons_append, List.orderedInsert_cons, List.orderedInsert_cons]
        split
        · rfl
        · rw [ih, List.cons_append]
    rw [hends] at hsorted' ⊢
    refine .cons b _ hfinite ?_ hsorted'
    intro hmem
    rcases (List.mem_orderedInsert _).mp hmem with heq | hmem
    · exact hub heq.symm
    · exact hnew hmem

end Arranged

/-! ### The bound of a value -/

theorem shiftBound_spec (fuel n k : ℕ) (hn : 0 < n) (hfuel : n < 2 ^ fuel) (hk : k + fuel ≤ 32) :
    ∃ e, shiftBound fuel n (2 ^ k) = 2 ^ (k + e) ∧ 2 ^ e ≤ n ∧ n < 2 ^ (e + 1) := by
  induction fuel generalizing n k with
  | zero => omega
  | succ fuel ih =>
    rw [shiftBound]
    split
    next hhalf =>
      refine ⟨0, rfl, ?_, ?_⟩
      · omega
      · omega
    next hhalf =>
      have hpos : 0 < n / 2 := by omega
      have hless : n / 2 < 2 ^ fuel := by omega
      have hfits : 2 ^ (k + 1) ≤ 2 ^ 31 ∨ fuel = 0 := by
        rcases Nat.eq_zero_or_pos fuel with h0 | h0
        · exact .inr h0
        · exact .inl (Nat.pow_le_pow_right (by omega) (by omega))
      have hfuel' : fuel ≠ 0 := by
        rintro rfl
        omega
      have hmod : 2 ^ k * 2 % 2 ^ 32 = 2 ^ (k + 1) := by
        rw [← Nat.pow_succ]
        have hle := hfits.resolve_right hfuel'
        exact Nat.mod_eq_of_lt (by omega)
      obtain ⟨e, hbound, hlow, hhigh⟩ := ih (n / 2) (k + 1) hpos hless (by omega)
      refine ⟨e + 1, ?_, ?_, ?_⟩
      · rw [hmod, hbound]
        congr 1
        omega
      · omega
      · omega

/-- The smallest power of two that is not below the value, and the largest bound for
values above 2^31 - 1. -/
theorem binLog2UpperBound_spec (n : ℕ) :
    (2147483647 < n ∧ binLog2UpperBound n = maxUint32) ∨
      (n ≤ 2147483647 ∧ ∃ k ≤ 31, binLog2UpperBound n = 2 ^ k ∧ n ≤ 2 ^ k ∧
        (k = 0 ∨ 2 ^ k < 2 * n)) := by
  rw [binLog2UpperBound]
  have hhalf : maxUint32 / 2 = 2147483647 := rfl
  rw [hhalf]
  split
  next hone => exact .inr ⟨by omega, 0, by omega, rfl, by omega, .inl rfl⟩
  next hone =>
    split
    next hlarge => exact .inl ⟨hlarge, rfl⟩
    next hlarge =>
      obtain ⟨e, hbound, hlow, hhigh⟩ :=
        shiftBound_spec 31 (n - 1) 1 (by omega) (by omega) (by omega)
      have he : e < 31 := by
        by_contra hge
        have hpow : 2 ^ 31 ≤ 2 ^ e := Nat.pow_le_pow_right (by omega) (by omega)
        omega
      refine .inr ⟨by omega, e + 1, by omega, ?_, by omega, .inr (by omega)⟩
      rw [Nat.add_comm e 1]
      exact hbound

theorem binLog2UpperBound_le (n : ℕ) : binLog2UpperBound n ≤ maxUint32 := by
  rcases binLog2UpperBound_spec n with ⟨-, h⟩ | ⟨-, k, hk, h, -, -⟩
  · exact Nat.le_of_eq h
  · have hpow : 2 ^ k ≤ 2 ^ 31 := Nat.pow_le_pow_right (by omega) hk
    rw [h, maxUint32]
    omega

/-! ### Histograms that stand for a table -/

/-- The bins that a histogram uses and the free ones behind them. -/
def binsOf (bs : List ℕ) (cnt : ℕ → ℕ) (free : ℕ) : List Bin :=
  bs.map (fun u => ⟨u, cnt u⟩) ++ List.replicate free ⟨0, 0⟩

structure Table (h : Histogram) (bs : List ℕ) (cnt : ℕ → ℕ) : Prop where
  bins : h.bins = binsOf bs cnt (h.nBins - bs.length)
  room : bs.length ≤ h.nBins
  limit : h.nBins ≤ binsMax
  arranged : Arranged bs
  fresh : ∀ u, u ∉ bs → cnt u = 0

/-- One more of a bound, as a `uint32_t`. -/
def bump (cnt : ℕ → ℕ) (u c : ℕ) : ℕ → ℕ := Function.update cnt u ((cnt u + c) % 2 ^ 32)

theorem bump_self (cnt : ℕ → ℕ) (u c : ℕ) : bump cnt u c u = (cnt u + c) % 2 ^ 32 :=
  Function.update_self ..

theorem bump_of_ne {cnt : ℕ → ℕ} {u v : ℕ} (h : v ≠ u) (c : ℕ) : bump cnt u c v = cnt v :=
  Function.update_of_ne h ..

theorem Table.length {h : Histogram} {bs : List ℕ} {cnt : ℕ → ℕ} (t : Table h bs cnt) :
    h.bins.length = h.nBins := by
  have hroom := t.room
  rw [t.bins, binsOf, List.length_append, List.length_map, List.length_replicate]
  omega

theorem getElem?_of_drop {l l' : List Bin} {i : ℕ} {b : Bin} (h : l.drop i = b :: l') :
    l[i]? = some b ∧ l.drop (i + 1) = l' := by
  constructor
  · have hget := congrArg (·[0]?) h
    simpa using hget
  · have hdrop := congrArg (List.drop 1) h
    rw [List.drop_drop] at hdrop
    exact hdrop

section
variable {cnt : ℕ → ℕ} {free : ℕ} {bins : List Bin} {ub : ℕ}

/-- One turn of the loop. -/
theorem log2Scan_cons {i j k u : ℕ} {l : List ℕ} (hdrop : bins.drop i = binsOf (u :: l) cnt free) :
    log2Scan bins ub (k + 1) i j =
      if u = ub then some (.found i)
      else if u = maxUint32 then some (.ended (i + 1) (if j = 0 ∧ ub < u then i else j))
      else log2Scan bins ub k (i + 1) (if j = 0 ∧ ub < u then i else j) := by
  rw [log2Scan, (getElem?_of_drop hdrop).1]

/-- A bound that is there is found. -/
theorem log2Scan_found {init : List ℕ} (hub : ub ∈ init ++ [maxUint32]) :
    ∀ (i j k : ℕ), (∀ b ∈ init, b < maxUint32) →
      bins.drop i = binsOf (init ++ [maxUint32]) cnt free → init.length < k →
      log2Scan bins ub k i j = some (.found (i + (init ++ [maxUint32]).idxOf ub)) := by
  induction init with
  | nil =>
    intro i j k _ hdrop hk
    obtain ⟨k, rfl⟩ := Nat.exists_eq_succ_of_ne_zero (Nat.ne_of_gt hk)
    rw [log2Scan_cons hdrop, if_pos (List.mem_singleton.mp hub).symm, List.mem_singleton.mp hub]
    simp
  | cons u init ih =>
    intro i j k hlt hdrop hk
    obtain ⟨k, rfl⟩ := Nat.exists_eq_succ_of_ne_zero (Nat.ne_of_gt (Nat.zero_lt_of_lt hk))
    rw [List.cons_append] at hub hdrop ⊢
    rw [log2Scan_cons hdrop]
    by_cases hu : u = ub
    · rw [if_pos hu, hu, List.idxOf_cons_self, Nat.add_zero]
    · have hfinite : u ≠ maxUint32 := Nat.ne_of_lt (hlt u (List.mem_cons_self ..))
      have hrest : ub ∈ init ++ [maxUint32] :=
        (List.mem_cons.mp hub).resolve_left fun h => hu h.symm
      have hk' : init.length < k := Nat.lt_of_succ_lt_succ hk
      rw [if_neg hu, if_neg hfinite, List.idxOf_cons_ne _ hu,
        ih hrest _ _ _ (fun b hb => hlt b (List.mem_cons_of_mem _ hb))
          (getElem?_of_drop hdrop).2 hk']
      congr 2
      omega

/-- Once a larger bound was seen its index is kept. -/
theorem log2Scan_placed {init : List ℕ} (hub : ub ∉ init ++ [maxUint32]) :
    ∀ (i j k : ℕ), j ≠ 0 → (∀ b ∈ init, b < maxUint32) →
      bins.drop i = binsOf (init ++ [maxUint32]) cnt free → init.length < k →
      log2Scan bins ub k i j = some (.ended (i + init.length + 1) j) := by
  induction init with
  | nil =>
    intro i j k hj _ hdrop hk
    obtain ⟨k, rfl⟩ := Nat.exists_eq_succ_of_ne_zero (Nat.ne_of_gt hk)
    have hu : maxUint32 ≠ ub := fun h => hub (List.mem_singleton.mpr h.symm)
    rw [log2Scan_cons hdrop, if_neg hu, if_pos rfl, if_neg fun h => hj h.1]
    rfl
  | cons u init ih =>
    intro i j k hj hlt hdrop hk
    obtain ⟨k, rfl⟩ := Nat.exists_eq_succ_of_ne_zero (Nat.ne_of_gt (Nat.zero_lt_of_lt hk))
    rw [List.cons_append] at hub hdrop
    obtain ⟨hne, hrest⟩ := List.ne_and_not_mem_of_not_mem_cons hub
    have hfinite : u ≠ maxUint32 := Nat.ne_of_lt (hlt u (List.mem_cons_self ..))
    have hk' : init.length < k := Nat.lt_of_succ_lt_succ hk
    rw [log2Scan_cons hdrop, if_neg fun h => hne h.symm, if_neg hfinite, if_neg fun h => hj h.1,
      ih hrest _ _ _ hj (fun b hb => hlt b (List.mem_cons_of_mem _ hb))
        (getElem?_of_drop hdrop).2 hk', List.length_cons]
    congr 2
    omega

/-- Behind the first bin, a new bound is put in front of the first larger bound. -/
theorem log2Scan_tail {init : List ℕ} (hub : ub ∉ init ++ [maxUint32]) (hmax : ub < maxUint32) :
    ∀ (i k : ℕ), i ≠ 0 → (∀ b ∈ init, b < maxUint32) →
      bins.drop i = binsOf (init ++ [maxUint32]) cnt free → init.length < k →
      log2Scan bins ub k i 0 = some (.ended (i + init.length + 1)
        (i + ((init ++ [maxUint32]).takeWhile fun b => ¬ ub < b).length)) := by
  induction init with
  | nil =>
    intro i k hi _ hdrop hk
    obtain ⟨k, rfl⟩ := Nat.exists_eq_succ_of_ne_zero (Nat.ne_of_gt hk)
    rw [log2Scan_cons hdrop, if_neg (Nat.ne_of_gt hmax), if_pos rfl, if_pos ⟨rfl, hmax⟩]
    simp [hmax]
  | cons u init ih =>
    intro i k hi hlt hdrop hk
    obtain ⟨k, rfl⟩ := Nat.exists_eq_succ_of_ne_zero (Nat.ne_of_gt (Nat.zero_lt_of_lt hk))
    rw [List.cons_append] at hub hdrop ⊢
    obtain ⟨hne, hrest⟩ := List.ne_and_not_mem_of_not_mem_cons hub
    have hfinite : u ≠ maxUint32 := Nat.ne_of_lt (hlt u (List.mem_cons_self ..))
    have hk' : init.length < k := Nat.lt_of_succ_lt_succ hk
    have hlt' : ∀ b ∈ init, b < maxUint32 := fun b hb => hlt b (List.mem_cons_of_mem _ hb)
    rw [log2Scan_cons hdrop, if_neg fun h => hne h.symm, if_neg hfinite]
    by_cases hless : ub < u
    · rw [if_pos ⟨rfl, hless⟩, log2Scan_placed hrest _ _ _ hi hlt' (getElem?_of_drop hdrop).2 hk',
        List.takeWhile_cons_of_neg (by simpa using hless), List.length_cons]
      congr 2
      omega
    · rw [if_neg fun h => hless h.2, ih hrest _ _ (Nat.succ_ne_zero i) hlt'
        (getElem?_of_drop hdrop).2 hk', List.takeWhile_cons_of_pos (by simpa using hless),
        List.length_cons, List.length_cons]
      congr 2 <;> omega

end

theorem scan_known {h : Histogram} {bs : List ℕ} {cnt : ℕ → ℕ} (t : Table h bs cnt) {ub : ℕ}
    (hub : ub ∈ bs) : log2Scan h.bins ub h.nBins 0 0 = some (.found (bs.idxOf ub)) := by
  obtain ⟨init, rfl, hlt⟩ := t.arranged.ends
  have hroom := t.room
  rw [List.length_append, List.length_singleton] at hroom
  rw [log2Scan_found hub 0 0 h.nBins hlt t.bins hroom, Nat.zero_add]

theorem scan_new {h : Histogram} {bs : List ℕ} {cnt : ℕ → ℕ} (t : Table h bs cnt) {ub : ℕ}
    (hub : ub ∉ bs) (hmax : ub < maxUint32) :
    log2Scan h.bins ub h.nBins 0 0 = some (.ended bs.length (place ub bs)) := by
  have hroom := t.room
  have hbins : h.bins.drop 0 = binsOf bs cnt (h.nBins - bs.length) := t.bins
  cases t.arranged with
  | empty =>
    obtain ⟨k, hk⟩ := Nat.exists_eq_succ_of_ne_zero (Nat.ne_of_gt hroom)
    rw [hk, log2Scan_cons hbins, if_neg (Nat.ne_of_gt hmax), if_pos rfl, if_pos ⟨rfl, hmax⟩]
    rfl
  | cons b init hfinite hnew hsorted =>
    have hlt : ∀ x ∈ init, x < maxUint32 := fun x hx =>
      (List.pairwise_append.mp hsorted).2.2 x hx _ (List.mem_singleton_self _)
    obtain ⟨hne, hrest⟩ := List.ne_and_not_mem_of_not_mem_cons hub
    obtain ⟨k, hk⟩ := Nat.exists_eq_succ_of_ne_zero (Nat.ne_of_gt (Nat.zero_lt_of_lt hroom))
    have hj : (if 0 = 0 ∧ ub < b then 0 else 0) = 0 := ite_self _
    have hlen : init.length < k := by
      rw [List.length_cons, List.length_append, List.length_singleton, hk] at hroom
      omega
    have hplace : place ub (b :: (init ++ [maxUint32])) =
        1 + ((init ++ [maxUint32]).takeWhile fun x => ¬ ub < x).length := by
      cases init <;> rfl
    rw [hk, log2Scan_cons hbins, if_neg fun h => hne h.symm, if_neg (Nat.ne_of_lt hfinite), hj,
      log2Scan_tail hrest hmax _ _ Nat.one_ne_zero hlt (getElem?_of_drop hbins).2 hlen, hplace]
    congr 2
    simp only [List.length_cons, List.length_append, List.length_nil]
    omega

/-! ### What the operations do to a table -/

theorem insertBin_split {h : Histogram} {pre post spare : List Bin} {z : Bin}
    (hbins : h.bins = pre ++ (post ++ z :: spare)) (ub : ℕ) :
    insertBin h (pre ++ post).length pre.length ub =
      some ({ h with bins := pre ++ (⟨ub, 0⟩ :: (post ++ spare)) }, pre.length) := by
  have hin : (pre ++ post).length < h.bins.length := by
    rw [hbins]
    simp only [List.length_append, List.length_cons]
    omega
  have hdrop : h.bins.drop pre.length = post ++ z :: spare := by
    rw [hbins]
    exact List.drop_left' rfl
  have hshift : (h.bins.drop pre.length).take ((pre ++ post).length - pre.length) = post := by
    rw [hdrop, List.length_append, Nat.add_sub_cancel_left]
    exact List.take_left' rfl
  have hrest : h.bins.drop ((pre ++ post).length + 1) = spare := by
    rw [hbins, ← List.append_assoc, ← List.drop_drop, List.drop_left' rfl]
    rfl
  -- one bin more than those in front is kept by the move, and then overwritten
  obtain ⟨x, rest, hx⟩ : ∃ x rest, post ++ z :: spare = x :: rest := by
    cases post with
    | nil => exact ⟨z, spare, rfl⟩
    | cons p post => exact ⟨p, post ++ z :: spare, rfl⟩
  have hkeep : h.bins.take (pre.length + 1) = pre ++ [x] := by
    rw [hbins, hx, List.take_length_add_append]
    rfl
  rw [insertBin, if_pos hin, hshift, hrest, hkeep]
  simp

namespace Table

variable {h : Histogram} {bs : List ℕ} {cnt : ℕ → ℕ}

/-- A new bound in a free bin. -/
theorem insert (t : Table h bs cnt) {ub : ℕ} (hub : ub ∉ bs) (hmax : ub < maxUint32)
    (hroom : bs.length < h.nBins) :
    ∃ h', insertBin h bs.length (place ub bs) ub = some (h', place ub bs) ∧
      Table h' (insertBound ub bs) cnt ∧ h'.hType = h.hType ∧ h'.nBins = h.nBins ∧
      h'.sum = h.sum := by
  obtain ⟨free, hfree⟩ := Nat.exists_eq_add_of_lt hroom
  have hleft : h.nBins - bs.length = free + 1 := by omega
  have hlen : ((bs.take (place ub bs)).map fun u => (⟨u, cnt u⟩ : Bin)).length = place ub bs := by
    rw [List.length_map, List.length_take]
    exact Nat.min_eq_left (place_le ub bs)
  have hall : (((bs.take (place ub bs)).map fun u => (⟨u, cnt u⟩ : Bin)) ++
      (bs.drop (place ub bs)).map fun u => (⟨u, cnt u⟩ : Bin)).length = bs.length := by
    rw [← List.map_append, List.take_append_drop, List.length_map]
  have hbins : h.bins = ((bs.take (place ub bs)).map fun u => (⟨u, cnt u⟩ : Bin)) ++
      (((bs.drop (place ub bs)).map fun u => (⟨u, cnt u⟩ : Bin)) ++
        ⟨0, 0⟩ :: List.replicate free ⟨0, 0⟩) := by
    rw [t.bins, hleft, binsOf, ← List.append_assoc, ← List.map_append, List.take_append_drop]
    rfl
  have hins := insertBin_split hbins ub
  rw [hall, hlen] at hins
  refine ⟨_, hins, ⟨?_, ?_, t.limit, t.arranged.insert hmax hub, ?_⟩, rfl, rfl, rfl⟩
  · have hfree' : h.nBins - (insertBound ub bs).length = free := by
      rw [insertBound_length]
      omega
    simp only [hfree', binsOf]
    rw [insertBound, List.map_append, List.map_cons, t.fresh ub hub, List.append_assoc,
      List.cons_append]
  · rw [insertBound_length]
    exact hroom
  · intro u hu
    exact t.fresh u fun hm => hu (mem_insertBound.mpr (.inr hm))

theorem add (t : Table h bs cnt) {i u : ℕ} (hi : bs[i]? = some u) (c : ℕ) :
    ∃ h', addCount h i c = some h' ∧ Table h' bs (bump cnt u c) ∧ h'.hType = h.hType ∧
      h'.nBins = h.nBins ∧ h'.sum = h.sum := by
  obtain ⟨hlt, hget⟩ := List.getElem?_eq_some_iff.mp hi
  have hmap : i < (bs.map fun u => (⟨u, cnt u⟩ : Bin)).length := by
    rw [List.length_map]
    exact hlt
  have hbin : h.bins[i]? = some ⟨u, cnt u⟩ := by
    rw [t.bins, binsOf, List.getElem?_append_left hmap, List.getElem?_map, hi]
    rfl
  have hadd : addCount h i c =
      some { h with bins := h.bins.set i ⟨u, (cnt u + c) % 2 ^ 32⟩ } := by rw [addCount, hbin]
  refine ⟨_, hadd, ⟨?_, t.room, t.limit, t.arranged, ?_⟩, rfl, rfl, rfl⟩
  · simp only
    rw [t.bins, binsOf, binsOf, List.set_append_left _ _ hmap]
    congr 1
    apply List.ext_getElem
    · simp
    · intro k hk hk'
      rw [List.length_set] at hk
      rw [List.length_map] at hk hk'
      rw [List.getElem_set, List.getElem_map, List.getElem_map]
      split
      next heq =>
        subst heq
        rw [hget, bump_self]
      next hne =>
        have hother : bs[k] ≠ u := by
          intro heq
          rw [← hget] at heq
          exact hne ((List.Nodup.getElem_inj_iff t.arranged.nodup).mp heq).symm
        rw [bump_of_ne hother]
  · intro v hv
    have hne : v ≠ u := by
      rintro rfl
      exact hv (List.mem_of_getElem? hi)
    rw [bump_of_ne hne]
    exact t.fresh v hv

/-- A larger object holds the same table. -/
theorem grow (t : Table h bs cnt) (hlimit : h.nBins ≠ binsMax) :
    ∃ h', histogramGrow h true = some h' ∧ Table h' bs cnt ∧ h.nBins < h'.nBins ∧
      h'.hType = h.hType ∧ h'.sum = h.sum := by
  have hle := t.limit
  have hroom := t.room
  have hmin : min binsIncrement (binsMax - h.nBins) ≤ binsMax - h.nBins := Nat.min_le_right ..
  have hpos : 0 < min binsIncrement (binsMax - h.nBins) := by
    rw [Nat.lt_min]
    exact ⟨by decide, by omega⟩
  have hgrow : histogramGrow h true = some
      { h with
        nBins := h.nBins + min binsIncrement (binsMax - h.nBins)
        bins := h.bins ++ List.replicate (min binsIncrement (binsMax - h.nBins)) ⟨0, 0⟩ } := by
    rw [histogramGrow, if_neg hlimit, if_pos rfl]
  refine ⟨_, hgrow, ⟨?_, ?_, ?_, t.arranged, t.fresh⟩, ?_, rfl, rfl⟩
  · simp only
    rw [t.bins, binsOf, binsOf, List.append_assoc, List.replicate_append_replicate]
    congr 2
    omega
  · simp only
    omega
  · simp only
    omega
  · simp only
    omega

/-! The bin that `histogram_log2_bin` gives for a bound. -/

theorem log2Bin_known (t : Table h bs cnt) {n : ℕ} (out alloc : Bool)
    (hub : binLog2UpperBound n ∈ bs) :
    histogramLog2Bin h n out alloc = some (h, bs.idxOf (binLog2UpperBound n)) := by
  simp only [histogramLog2Bin, scan_known t hub]

theorem new_lt (t : Table h bs cnt) {n : ℕ} (hub : binLog2UpperBound n ∉ bs) :
    binLog2UpperBound n < maxUint32 := by
  have hne : binLog2UpperBound n ≠ maxUint32 := by
    intro heq
    rw [heq] at hub
    exact hub t.arranged.max_mem
  exact Nat.lt_of_le_of_ne (binLog2UpperBound_le n) hne

/-- A new bound finds a free bin, or the histogram may grow. -/
def Room (h : Histogram) (bs : List ℕ) (out alloc : Bool) : Prop :=
  bs.length < h.nBins ∨ out = true ∧ alloc = true ∧ h.nBins ≠ binsMax

theorem log2Bin_new (t : Table h bs cnt) {n : ℕ} {out alloc : Bool}
    (hub : binLog2UpperBound n ∉ bs) (hroom : Room h bs out alloc) :
    ∃ h', histogramLog2Bin h n out alloc =
        some (h', place (binLog2UpperBound n) bs) ∧
      Table h' (insertBound (binLog2UpperBound n) bs) cnt ∧ h'.hType = h.hType ∧
      h'.sum = h.sum ∧ (out = false → h'.nBins = h.nBins) := by
  have hmax := t.new_lt hub
  simp only [histogramLog2Bin, scan_new t hub hmax]
  rcases Nat.lt_or_ge bs.length h.nBins with hlt | hge
  · rw [if_neg (Nat.ne_of_lt hlt)]
    obtain ⟨h', hins, ht, htype, hn, hsum⟩ := t.insert hub hmax hlt
    exact ⟨h', hins, ht, htype, hsum, fun _ => hn⟩
  · obtain ⟨rfl, rfl, hlimit⟩ := hroom.resolve_left (Nat.not_lt.mpr hge)
    have hfull : bs.length = h.nBins := Nat.le_antisymm t.room hge
    obtain ⟨g, hgrow, tg, hmore, htypeg, hsumg⟩ := t.grow hlimit
    obtain ⟨h', hins, ht, htype, -, hsum⟩ := tg.insert hub hmax (by omega)
    rw [if_pos hfull, if_pos rfl, hgrow]
    exact ⟨h', hins, ht, htype.trans htypeg, hsum.trans hsumg, fun h => nomatch h⟩

theorem log2Bin_full (t : Table h bs cnt) {n : ℕ} {out alloc : Bool}
    (hub : binLog2UpperBound n ∉ bs)
    (hfull : ¬ Room h bs out alloc) :
    histogramLog2Bin h n out alloc = some (h, place (binLog2UpperBound n) bs) := by
  have hlen : bs.length = h.nBins :=
    Nat.le_antisymm t.room (Nat.not_lt.mp fun hlt => hfull (.inl hlt))
  have hno : (if out then histogramGrow h alloc else none) = none := by
    cases out with
    | false => rfl
    | true =>
      rw [if_pos rfl, histogramGrow]
      by_cases hlimit : h.nBins = binsMax
      · rw [if_pos hlimit]
      · cases alloc with
        | false => rw [if_neg hlimit]; rfl
        | true => exact absurd (.inr ⟨rfl, rfl, hlimit⟩) hfull
  simp only [histogramLog2Bin, scan_new t hub (t.new_lt hub)]
  rw [if_pos hlen, hno]

theorem place_lt (t : Table h bs cnt) {ub : ℕ} (hub : ub ∉ bs) (hmax : ub < maxUint32) :
    place ub bs < bs.length := by
  refine Nat.lt_of_le_of_ne (place_le ub bs) ?_
  intro heq
  obtain ⟨init, hends, -⟩ := (t.arranged.insert hmax hub).ends
  rw [insertBound, heq, List.take_length, List.drop_length] at hends
  have hlast := (List.append_inj' hends rfl).2
  exact Nat.ne_of_lt hmax (List.head_eq_of_cons_eq hlast)

/-- The bounds once a bound has its bin. -/
def putBound (ub : ℕ) (bs : List ℕ) : List ℕ := if ub ∈ bs then bs else insertBound ub bs

/-- Where there is a bin for the value its count goes up, otherwise that of another one. -/
theorem put (t : Table h bs cnt) (n c : ℕ) (out alloc : Bool) :
    ∃ h₁ i h', histogramLog2Bin h n out alloc = some (h₁, i) ∧ addCount h₁ i c = some h' ∧
      h'.hType = h.hType ∧ h'.sum = h.sum ∧ (out = false → h'.nBins = h.nBins) ∧
      ((binLog2UpperBound n ∈ bs ∨ Room h bs out alloc) ∧
          Table h' (putBound (binLog2UpperBound n) bs) (bump cnt (binLog2UpperBound n) c) ∨
        (binLog2UpperBound n ∉ bs ∧ ¬ Room h bs out alloc) ∧
          ∃ u ∈ bs, Table h' bs (bump cnt u c)) := by
  by_cases hub : binLog2UpperBound n ∈ bs
  · obtain ⟨h', hadd, ht, htype, hn, hsum⟩ := t.add (List.getElem?_idxOf hub) c
    refine ⟨h, _, h', t.log2Bin_known out alloc hub, hadd, htype, hsum, fun _ => hn, .inl ⟨.inl hub, ?_⟩⟩
    rw [putBound, if_pos hub]
    exact ht
  · by_cases hroom : Room h bs out alloc
    · obtain ⟨h₁, hbin, t₁, htype₁, hsum₁, hn₁⟩ := t.log2Bin_new hub hroom
      obtain ⟨h', hadd, ht, htype, hn, hsum⟩ := t₁.add (insertBound_place _ bs) c
      refine ⟨h₁, _, h', hbin, hadd, htype.trans htype₁, hsum.trans hsum₁, ?_, .inl ⟨.inr hroom, ?_⟩⟩
      · intro hout
        exact hn.trans (hn₁ hout)
      · rw [putBound, if_neg hub]
        exact ht
    · have hlt := t.place_lt hub (t.new_lt hub)
      obtain ⟨h', hadd, ht, htype, hn, hsum⟩ := t.add (List.getElem?_eq_getElem hlt) c
      exact ⟨h, _, h', t.log2Bin_full hub hroom, hadd, htype, hsum, fun _ => hn,
        .inr ⟨⟨hub, hroom⟩, _, List.getElem_mem hlt, ht⟩⟩

end Table

end NgxWasm.Metrics
