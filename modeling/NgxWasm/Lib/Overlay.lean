import Mathlib.Data.List.Basic
import Mathlib.Tactic.Common

/-!
# Writes into a memory, and which of them are still there afterwards

A memory is a function from addresses, a patch is a list of values written at an
address. A patch that was written is still there at the end of a sequence of
writes when the later ones agree with it wherever they meet.
-/

namespace NgxWasm.Lib.Overlay

variable {α : Type*}

structure Patch (α : Type*) where
  addr : ℕ
  data : List α

def apply (m : ℕ → α) (w : Patch α) : ℕ → α :=
  fun a => if w.addr ≤ a then (w.data[a - w.addr]?).getD (m a) else m a

/-- The memory shows what the patch wrote. -/
def Holds (m : ℕ → α) (w : Patch α) : Prop :=
  ∀ i x, w.data[i]? = some x → m (w.addr + i) = x

/-- Two patches write the same wherever both write. -/
def Agree (v w : Patch α) : Prop :=
  ∀ i j x y, v.data[i]? = some x → w.data[j]? = some y → v.addr + i = w.addr + j → x = y

theorem agree_symm {v w : Patch α} (h : Agree v w) : Agree w v := by
  intro i j x y hx hy hij
  exact (h j i y x hy hx hij.symm).symm

theorem apply_inside (m : ℕ → α) (w : Patch α) {i : ℕ} {x : α} (h : w.data[i]? = some x) :
    apply m w (w.addr + i) = x := by
  simp [apply, h]

theorem apply_outside {m : ℕ → α} {w : Patch α} {a : ℕ}
    (h : ∀ j y, w.data[j]? = some y → a ≠ w.addr + j) : apply m w a = m a := by
  unfold apply
  split
  · rename_i hle
    cases hy : w.data[a - w.addr]? with
    | none => rfl
    | some y => exact absurd (by omega) (h _ _ hy)
  · rfl

theorem holds_apply_self (m : ℕ → α) (w : Patch α) : Holds (apply m w) w := by
  intro i x hx
  exact apply_inside m w hx

/-- Two patches a memory shows at once agree. -/
theorem agree_of_holds {m : ℕ → α} {v w : Patch α} (hv : Holds m v) (hw : Holds m w) :
    Agree v w := by
  intro i j x y hx hy hij
  rw [← hv i x hx, ← hw j y hy, hij]

theorem holds_apply {m : ℕ → α} {v w : Patch α} (hv : Holds m v) (h : Agree v w) :
    Holds (apply m w) v := by
  intro i x hx
  by_cases hin : ∃ j y, w.data[j]? = some y ∧ v.addr + i = w.addr + j
  · obtain ⟨j, y, hy, hij⟩ := hin
    rw [hij, apply_inside m w hy]
    exact (h i j x y hx hy hij).symm
  · rw [apply_outside fun j y hy hij => hin ⟨j, y, hy, hij⟩]
    exact hv i x hx

/-- After a write at its address a patch is shown as far as both agree, and behind that if it
was shown before. -/
theorem holds_apply_iff {m : ℕ → α} {a : ℕ} {xs ys : List α} :
    Holds (apply m ⟨a, ys⟩) ⟨a, xs⟩ ↔
      Agree ⟨a, xs⟩ ⟨a, ys⟩ ∧ Holds m ⟨a + ys.length, xs.drop ys.length⟩ := by
  have hout : ∀ i, ys.length ≤ i → apply m ⟨a, ys⟩ (a + i) = m (a + i) := by
    intro i hi
    refine apply_outside fun j y hy hij => ?_
    have hj : j < ys.length := (List.getElem?_eq_some_iff.mp hy).1
    simp only at hij
    omega
  constructor
  · intro h
    refine ⟨agree_of_holds h (holds_apply_self m ⟨a, ys⟩), fun i x hx => ?_⟩
    simp only [List.getElem?_drop] at hx
    have hx' := h (ys.length + i) x hx
    rw [hout _ (Nat.le_add_right _ _)] at hx'
    rw [← hx', Nat.add_assoc]
  · rintro ⟨hagree, hbehind⟩ i x hx
    by_cases hi : i < ys.length
    · have hy : ys[i]? = some ys[i] := List.getElem?_eq_getElem hi
      rw [hagree i i x _ hx hy rfl]
      exact apply_inside m ⟨a, ys⟩ hy
    · have hx' : (xs.drop ys.length)[i - ys.length]? = some x := by
        rw [List.getElem?_drop, Nat.add_sub_cancel' (Nat.le_of_not_lt hi)]
        exact hx
      rw [hout i (Nat.le_of_not_lt hi), ← hbehind _ x hx', Nat.add_assoc,
        Nat.add_sub_cancel' (Nat.le_of_not_lt hi)]

theorem holds_foldl {ws : List (Patch α)} {m : ℕ → α} {v : Patch α} (hv : Holds m v)
    (h : ∀ w ∈ ws, Agree v w) : Holds (ws.foldl apply m) v := by
  induction ws generalizing m with
  | nil => exact hv
  | cons w ws ih =>
    have hw : Holds (apply m w) v := holds_apply hv (h w (List.mem_cons_self ..))
    exact ih hw fun u hu => h u (List.mem_cons_of_mem _ hu)

/-- After a sequence of writes all of them show exactly when no two contradict
each other. -/
theorem holds_all_iff (ws : List (Patch α)) (m : ℕ → α) :
    (∀ w ∈ ws, Holds (ws.foldl apply m) w) ↔ ws.Pairwise Agree := by
  induction ws generalizing m with
  | nil => simp
  | cons w ws ih =>
    rw [List.pairwise_cons, ← ih (apply m w)]
    constructor
    · intro h
      have hw := h w (List.mem_cons_self ..)
      constructor
      · intro u hu
        exact agree_of_holds hw (h u (List.mem_cons_of_mem _ hu))
      · intro u hu
        exact h u (List.mem_cons_of_mem _ hu)
    · rintro ⟨hw, hall⟩ u hu
      rcases List.mem_cons.mp hu with rfl | hu
      · rw [List.foldl_cons]
        exact holds_foldl (holds_apply_self m u) hw
      · exact hall u hu

/-- Two patches in a row are one. -/
theorem apply_append (m : ℕ → α) (a : ℕ) (xs ys : List α) :
    apply (apply m ⟨a, xs⟩) ⟨a + xs.length, ys⟩ = apply m ⟨a, xs ++ ys⟩ := by
  funext b
  simp only [apply, List.getElem?_append]
  by_cases hb : a + xs.length ≤ b
  · have hlong : ¬ b - a < xs.length := by omega
    have hshort : xs[b - a]? = none := List.getElem?_eq_none (by omega)
    have hle : a ≤ b := by omega
    have hsub : b - (a + xs.length) = b - a - xs.length := by omega
    simp only [hb, hle, if_true, hlong, if_false, hshort, hsub, Option.getD_none]
  · simp only [hb, if_false]
    by_cases hle : a ≤ b
    · have hlt : b - a < xs.length := by omega
      simp only [hle, if_true, hlt]
    · simp only [hle, if_false]

theorem apply_nil (m : ℕ → α) (a : ℕ) : apply m ⟨a, []⟩ = m := by
  funext b
  simp [apply]

end NgxWasm.Lib.Overlay
