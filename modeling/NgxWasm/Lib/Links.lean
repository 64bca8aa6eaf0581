import Mathlib.Algebra.Order.Ring.Nat
import Mathlib.Data.List.Basic
import Mathlib.Data.List.Nodup
import Mathlib.Data.List.Perm.Subperm
import Mathlib.Data.List.Range
import Mathlib.Logic.Function.Basic

/-!
# Chains of linked cells

Cells know the address of the next one. `Seg next a xs b` is a segment that
starts at `a`, visits `xs` and ends before `b`; `walk` follows a chain with a
bound on its length, and `upto` is the part of it that ends at a marked cell.
-/

namespace NgxWasm.Lib.Links

variable {α β : Type*} {next next' : α → Option α}

def walk (next : α → Option α) : ℕ → Option α → List α
  | k + 1, some a => a :: walk next k (next a)
  | _, _ => []

def upto (stop : α → Bool) : List α → List α
  | [] => []
  | a :: as => if stop a then [a] else a :: upto stop as

def Seg (next : α → Option α) : Option α → List α → Option α → Prop
  | a, [], b => a = b
  | a, x :: xs, b => a = some x ∧ Seg next (next x) xs b

theorem seg_append {xs ys : List α} {a b : Option α} :
    Seg next a (xs ++ ys) b ↔ ∃ m, Seg next a xs m ∧ Seg next m ys b := by
  induction xs generalizing a with
  | nil => simp [Seg]
  | cons x xs ih =>
    simp only [List.cons_append, Seg, ih]
    constructor
    · rintro ⟨ha, m, hx, hy⟩
      exact ⟨m, ⟨ha, hx⟩, hy⟩
    · rintro ⟨m, ⟨ha, hx⟩, hy⟩
      exact ⟨ha, m, hx, hy⟩

theorem seg_snoc {xs : List α} {l : α} {a b : Option α} :
    Seg next a (xs ++ [l]) b ↔ Seg next a xs (some l) ∧ next l = b := by
  rw [seg_append]
  constructor
  · rintro ⟨m, hx, rfl, hl⟩
    exact ⟨hx, hl⟩
  · rintro ⟨hx, hl⟩
    exact ⟨_, hx, rfl, hl⟩

theorem seg_congr {xs : List α} {a b : Option α} (h : ∀ x ∈ xs, next' x = next x)
    (hs : Seg next a xs b) : Seg next' a xs b := by
  induction xs generalizing a with
  | nil => exact hs
  | cons x xs ih =>
    refine ⟨hs.1, ?_⟩
    rw [h x (List.mem_cons_self ..)]
    exact ih (fun y hy => h y (List.mem_cons_of_mem _ hy)) hs.2

theorem seg_relink {xs ys : List α} {l : α} {a b c : Option α} (hs : Seg next a (xs ++ [l]) b)
    (h : ∀ x ∈ xs, next' x = next x) (hy : Seg next' (next' l) ys c) :
    Seg next' a (xs ++ l :: ys) c :=
  seg_append.mpr ⟨some l, seg_congr h (seg_snoc.mp hs).1, rfl, hy⟩

theorem walk_seg {xs : List α} {a : Option α} {k : ℕ} (hs : Seg next a xs none)
    (hk : xs.length ≤ k) : walk next k a = xs := by
  induction xs generalizing a k with
  | nil =>
    have ha : a = none := hs
    rw [ha]
    cases k with
    | zero => rfl
    | succ k => rfl
  | cons x xs ih =>
    obtain ⟨ha, hs⟩ := hs
    rw [ha]
    cases k with
    | zero => simp at hk
    | succ k =>
      rw [walk, ih hs (by simpa using hk)]

theorem mem_walk {xs : List α} {a : Option α} {x : α} {k : ℕ} (hs : Seg next a xs (some x))
    (hk : xs.length < k) : x ∈ walk next k a := by
  induction xs generalizing a k with
  | nil =>
    obtain rfl : a = some x := hs
    cases k with
    | zero => simp at hk
    | succ k => exact List.mem_cons_self ..
  | cons y xs ih =>
    obtain ⟨rfl, hs⟩ := hs
    cases k with
    | zero => simp at hk
    | succ k => exact List.mem_cons_of_mem _ (ih hs (by simpa using hk))

theorem upto_append {stop : α → Bool} {xs ys : List α} (h : ∀ x ∈ xs, stop x = false) :
    upto stop (xs ++ ys) = xs ++ upto stop ys := by
  induction xs with
  | nil => rfl
  | cons x xs ih =>
    rw [List.cons_append, upto, h x (List.mem_cons_self ..)]
    simp [ih fun y hy => h y (List.mem_cons_of_mem _ hy)]

theorem upto_dropLast {stop : α → Bool} {xs : List α} (h : ∀ x ∈ xs.dropLast, stop x = false) :
    upto stop xs = xs := by
  rcases List.eq_nil_or_concat xs with rfl | ⟨ys, y, rfl⟩
  · rfl
  · rw [List.concat_eq_append, List.dropLast_concat] at h
    rw [List.concat_eq_append, upto_append h, upto]
    split
    · rfl
    · rfl

theorem upto_subset (stop : α → Bool) (xs : List α) : ∀ x ∈ upto stop xs, x ∈ xs := by
  induction xs with
  | nil => simp [upto]
  | cons y xs ih =>
    intro x hx
    rw [upto] at hx
    split at hx
    · exact List.mem_cons.mpr (.inl (List.mem_singleton.mp hx))
    · rcases List.mem_cons.mp hx with hx | hx
      · exact List.mem_cons.mpr (.inl hx)
      · exact List.mem_cons_of_mem _ (ih x hx)

theorem upto_congr {stop stop' : α → Bool} {xs : List α} (h : ∀ x ∈ xs, stop' x = stop x) :
    upto stop' xs = upto stop xs := by
  induction xs with
  | nil => rfl
  | cons x xs ih =>
    rw [upto, upto, h x (List.mem_cons_self ..), ih fun y hy => h y (List.mem_cons_of_mem _ hy)]

theorem flatMap_upto {stop : α → Bool} {f : α → List β} {xs ys : List α} {l : α}
    (hx : ∀ x ∈ xs, stop x = false) (hy : ∀ y ∈ ys, f y = []) :
    (upto stop (xs ++ l :: ys)).flatMap f = (xs ++ [l]).flatMap f := by
  rw [upto_append hx, List.flatMap_append, List.flatMap_append, upto]
  congr 1
  split
  · rfl
  · have hnil : (upto stop ys).flatMap f = [] :=
      List.flatMap_eq_nil_iff.mpr fun y hyu => hy y (upto_subset stop ys y hyu)
    rw [List.flatMap_cons, hnil, List.flatMap_singleton, List.append_nil]

theorem flatMap_upto_snoc {stop : α → Bool} {f : α → List β} {xs : List α} {e : α}
    (he : f e = []) : (upto stop (xs ++ [e])).flatMap f = (upto stop xs).flatMap f := by
  induction xs with
  | nil => simp [upto, he]
  | cons x xs ih =>
    rw [List.cons_append, upto, upto]
    split
    · rfl
    · rw [List.flatMap_cons, List.flatMap_cons, ih]

theorem length_le_of_nodup {xs : List ℕ} {n : ℕ} (hd : xs.Nodup) (h : ∀ x ∈ xs, x < n) :
    xs.length ≤ n := by
  have hsub : xs ⊆ List.range n := fun x hx => List.mem_range.mpr (h x hx)
  simpa using (List.subperm_of_subset hd hsub).length_le

theorem seg_unique {xs ys : List α} {a : Option α} (hx : Seg next a xs none)
    (hy : Seg next a ys none) : xs = ys := by
  induction xs generalizing a ys with
  | nil =>
    cases ys with
    | nil => rfl
    | cons y ys => exact absurd (hx.symm.trans hy.1) (by simp)
  | cons x xs ih =>
    cases ys with
    | nil => exact absurd (hx.1.symm.trans hy) (by simp)
    | cons y ys =>
      obtain rfl : x = y := Option.some.inj (hx.1.symm.trans hy.1)
      rw [ih hx.2 hy.2]

/-- A chain that ends visits no cell twice. -/
theorem seg_nodup {xs : List α} {a : Option α} (h : Seg next a xs none) : xs.Nodup := by
  induction xs generalizing a with
  | nil => exact List.nodup_nil
  | cons x xs ih =>
    refine List.nodup_cons.mpr ⟨fun hx => ?_, ih h.2⟩
    obtain ⟨ys, zs, rfl⟩ := List.append_of_mem hx
    obtain ⟨m, -, rfl, hz⟩ := seg_append.mp h.2
    have hlen := congrArg List.length (seg_unique h.2 hz)
    simp at hlen
    omega

theorem seg_suffix {xs : List α} {a : Option α} {x : α} (h : Seg next a xs none) (hx : x ∈ xs) :
    ∃ zs, Seg next (some x) (x :: zs) none ∧ ∀ z ∈ x :: zs, z ∈ xs := by
  obtain ⟨ys, zs, rfl⟩ := List.append_of_mem hx
  obtain ⟨m, -, rfl, hz⟩ := seg_append.mp h
  exact ⟨zs, ⟨rfl, hz⟩, fun z hm => List.mem_append_right _ hm⟩

section

variable [DecidableEq α]

/-- The cells of the chain `a` are put in front of the chain `top`, one by one. -/
def pushAll : ℕ → (α → Option α) → Option α → Option α → (α → Option α) × Option α
  | k + 1, next, top, some x => pushAll k (Function.update next x top) (some x) (next x)
  | _, next, top, _ => (next, top)

theorem pushAll_seg {xs ts : List α} {a top : Option α} {k : ℕ} (hs : Seg next a xs none)
    (ht : Seg next top ts none) (hd : ∀ x ∈ xs, x ∉ ts) (hk : xs.length ≤ k) :
    Seg (pushAll k next top a).1 (pushAll k next top a).2 (xs.reverse ++ ts) none ∧
      ∀ y, y ∉ xs → (pushAll k next top a).1 y = next y := by
  induction xs generalizing next a top ts k with
  | nil =>
    obtain rfl : a = none := hs
    cases k <;> exact ⟨ht, fun y _ => rfl⟩
  | cons x xs ih =>
    obtain ⟨rfl, hs⟩ := hs
    cases k with
    | zero => simp at hk
    | succ k =>
      have hseg : Seg next (some x) (x :: xs) none := ⟨rfl, hs⟩
      have hx : x ∉ xs := (List.nodup_cons.mp (seg_nodup hseg)).1
      have hxt : x ∉ ts := hd x (List.mem_cons_self ..)
      have hother : ∀ y, y ≠ x → Function.update next x top y = next y :=
        fun y hy => Function.update_of_ne hy _ _
      have hs' : Seg (Function.update next x top) (next x) xs none :=
        seg_congr (fun y hy => hother y fun he => hx (he ▸ hy)) hs
      have ht' : Seg (Function.update next x top) (some x) (x :: ts) none := by
        refine ⟨rfl, ?_⟩
        rw [Function.update_self]
        exact seg_congr (fun y hy => hother y fun he => hxt (he ▸ hy)) ht
      have hd' : ∀ y ∈ xs, y ∉ x :: ts := by
        intro y hy hmem
        rcases List.mem_cons.mp hmem with rfl | hmem
        · exact hx hy
        · exact hd y (List.mem_cons_of_mem _ hy) hmem
      obtain ⟨hseg, hkeep⟩ := ih hs' ht' hd' (Nat.le_of_succ_le_succ hk)
      refine ⟨?_, fun y hy => ?_⟩
      · rw [List.reverse_cons, List.append_assoc]
        exact hseg
      · rw [List.mem_cons, not_or] at hy
        exact (hkeep y hy.2).trans (hother y hy.1)

end

/-- The last cell of a chain that starts at `a`, unless it is longer than the bound. -/
def lastOf (next : α → Option α) : ℕ → α → Option α
  | 0, _ => none
  | k + 1, a =>
    match next a with
    | none => some a
    | some b => lastOf next k b

theorem lastOf_seg {xs : List α} {a l : α} {k : ℕ} (hs : Seg next (some a) (xs ++ [l]) none)
    (hk : xs.length < k) : lastOf next k a = some l := by
  induction xs generalizing a k with
  | nil =>
    obtain ⟨ha, hl⟩ := hs
    obtain rfl := Option.some.inj ha
    obtain ⟨k, rfl⟩ := Nat.exists_eq_succ_of_ne_zero (Nat.ne_of_gt hk)
    have hnone : next a = none := hl
    rw [lastOf, hnone]
  | cons x xs ih =>
    obtain ⟨ha, hs⟩ := hs
    obtain rfl := Option.some.inj ha
    obtain ⟨k, rfl⟩ := Nat.exists_eq_succ_of_ne_zero (Nat.ne_of_gt (Nat.lt_of_le_of_lt (Nat.zero_le _) hk))
    have hlen : xs.length < k := by
      rw [List.length_cons] at hk
      omega
    cases hn : next a with
    | none =>
      rw [hn] at hs
      cases xs with
      | nil => exact absurd hs.1 (by simp)
      | cons y ys => exact absurd hs.1 (by simp)
    | some b =>
      rw [hn] at hs
      rw [lastOf, hn]
      exact ih hs hlen

/-- A cell hung behind the last one. -/
theorem seg_attach [DecidableEq α] {xs : List α} {l h : α} {a : Option α}
    (hs : Seg next a (xs ++ [l]) none) (hh : h ∉ xs ++ [l]) :
    Seg (Function.update (Function.update next l (some h)) h none) a (xs ++ [l] ++ [h]) none := by
  have hl : l ≠ h := fun heq => hh (by simp [heq])
  have hnodup := seg_nodup hs
  rw [seg_snoc, seg_snoc]
  refine ⟨⟨?_, ?_⟩, Function.update_self ..⟩
  · apply seg_congr _ (seg_snoc.mp hs).1
    intro x hx
    have hxh : x ≠ h := fun heq => hh (by rw [← heq]; exact List.mem_append_left _ hx)
    have hxl : x ≠ l := by
      intro heq
      rw [List.nodup_append] at hnodup
      exact hnodup.2.2 x hx l (List.mem_singleton_self _) heq
    rw [Function.update_of_ne hxh, Function.update_of_ne hxl]
  · rw [Function.update_of_ne hl, Function.update_self]

end NgxWasm.Lib.Links
