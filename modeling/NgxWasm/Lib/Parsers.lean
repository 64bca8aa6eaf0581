import Mathlib.Data.List.Basic
import Mathlib.Data.Int.Basic
import Mathlib.Tactic.Common

/-!
# Resumable parsers

A parser reads input from a state and answers or asks for more. It marks positions,
counted from the first element of a call; a later call overrides the marks of the
earlier ones. A resumable parser answers the same however its input is cut.
-/

namespace NgxWasm.Lib.Parsers

variable {σ α ι ρ : Type}

/-- Without a result the parser asks for more. -/
structure Reply (σ ι ρ : Type) where
  result : Option ρ
  next : σ
  used : ℕ
  mark : ι → Option ℤ

/-- A reply seen from the start of an earlier call that used `n` elements. -/
def Reply.after (r : Reply σ ι ρ) (n : ℕ) (earlier : ι → Option ℤ) : Reply σ ι ρ where
  result := r.result
  next := r.next
  used := n + r.used
  mark := fun i => ((r.mark i).map fun a => (n : ℤ) + a).or (earlier i)

@[simp] theorem after_result (r : Reply σ ι ρ) (n : ℕ) (m : ι → Option ℤ) :
    (r.after n m).result = r.result := rfl

@[simp] theorem after_next (r : Reply σ ι ρ) (n : ℕ) (m : ι → Option ℤ) :
    (r.after n m).next = r.next := rfl

@[simp] theorem after_used (r : Reply σ ι ρ) (n : ℕ) (m : ι → Option ℤ) :
    (r.after n m).used = n + r.used := rfl

theorem after_mark (r : Reply σ ι ρ) (n : ℕ) (m : ι → Option ℤ) (i : ι) :
    (r.after n m).mark i = ((r.mark i).map fun a => (n : ℤ) + a).or (m i) := rfl

theorem after_zero (r : Reply σ ι ρ) : r.after 0 (fun _ => none) = r := by
  obtain ⟨result, next, used, mark⟩ := r
  simp only [Reply.after, Nat.zero_add, Reply.mk.injEq, true_and]
  funext i
  cases mark i <;> simp

theorem after_after (r : Reply σ ι ρ) (n k : ℕ) (m e : ι → Option ℤ) :
    (r.after n m).after k e =
      r.after (k + n) fun i => ((m i).map fun a => (k : ℤ) + a).or (e i) := by
  simp only [Reply.after, Nat.add_assoc, Reply.mk.injEq, true_and]
  funext i
  cases r.mark i <;> simp [Int.add_assoc]

structure Resumable (parse : σ → List α → Reply σ ι ρ) : Prop where
  nil : ∀ s, (parse s []).result = none
  used_le : ∀ s xs, (parse s xs).used ≤ xs.length
  asks : ∀ s xs, (parse s xs).result = none → (parse s xs).used = xs.length
  append : ∀ s xs ys, (parse s xs).result = none →
    parse s (xs ++ ys) = (parse (parse s xs).next ys).after xs.length (parse s xs).mark
  answers : ∀ s xs ys, (parse s xs).result ≠ none → parse s (xs ++ ys) = parse s xs

/-- After `xs` from `s` the parser waits in `t` with the marks `m`. -/
def Waits (parse : σ → List α → Reply σ ι ρ) (s : σ) (xs : List α) (t : σ)
    (m : ι → Option ℤ) : Prop :=
  ∀ ys, parse s (xs ++ ys) = (parse t ys).after xs.length m

theorem waits_nil (parse : σ → List α → Reply σ ι ρ) (s : σ) :
    Waits parse s [] s fun _ => none := by
  intro ys
  rw [List.nil_append, List.length_nil, after_zero]

theorem Waits.append {parse : σ → List α → Reply σ ι ρ} (h : Resumable parse) {s t : σ}
    {xs ys : List α} {m : ι → Option ℤ} (hw : Waits parse s xs t m)
    (hask : (parse t ys).result = none) :
    Waits parse s (xs ++ ys) (parse t ys).next ((parse t ys).after xs.length m).mark := by
  intro zs
  rw [List.append_assoc, hw (ys ++ zs), h.append t ys zs hask, after_after, List.length_append]
  rfl

/-! ### Parsers that look at one element after the other -/

inductive Step (σ ι ρ : Type) where
  | more (next : σ) (mark : ι → Option ℤ)
  /-- An element that is not eaten is left for the next call. -/
  | stop (result : ρ) (next : σ) (eaten : Bool) (mark : ι → Option ℤ)

def scan (step : σ → α → Step σ ι ρ) : σ → List α → Reply σ ι ρ
  | s, [] => ⟨none, s, 0, fun _ => none⟩
  | s, x :: xs =>
    match step s x with
    | .more t m => (scan step t xs).after 1 m
    | .stop result t eaten m => ⟨some result, t, if eaten then 1 else 0, m⟩

theorem scan_more {step : σ → α → Step σ ι ρ} {s t : σ} {x : α} {m : ι → Option ℤ}
    (h : step s x = .more t m) (xs : List α) :
    scan step s (x :: xs) = (scan step t xs).after 1 m := by
  simp only [scan, h]

theorem scan_stop {step : σ → α → Step σ ι ρ} {s t : σ} {x : α} {result : ρ} {eaten : Bool}
    {m : ι → Option ℤ} (h : step s x = .stop result t eaten m) (xs : List α) :
    scan step s (x :: xs) = ⟨some result, t, if eaten then 1 else 0, m⟩ := by
  simp only [scan, h]

theorem scan_resumable (step : σ → α → Step σ ι ρ) : Resumable (scan step) where
  nil := fun _ => rfl
  used_le := by
    intro s xs
    induction xs generalizing s with
    | nil => exact Nat.le_refl 0
    | cons x xs ih =>
      simp only [scan]
      cases step s x with
      | more t m =>
        have := ih t
        simp only [after_used, List.length_cons]
        omega
      | stop result t eaten m =>
        cases eaten <;> simp
  asks := by
    intro s xs h
    induction xs generalizing s with
    | nil => rfl
    | cons x xs ih =>
      simp only [scan] at h ⊢
      cases hs : step s x with
      | more t m =>
        simp only [hs, after_result] at h
        simp only [after_used, List.length_cons, ih t h]
        omega
      | stop result t eaten m => simp [hs] at h
  append := by
    intro s xs ys h
    induction xs generalizing s with
    | nil => exact (after_zero (scan step s ys)).symm
    | cons x xs ih =>
      simp only [scan, List.cons_append] at h ⊢
      cases hs : step s x with
      | more t m =>
        simp only [hs, after_result] at h
        simp only [ih t h, after_after, after_next, List.length_cons, Nat.add_comm 1]
        rfl
      | stop result t eaten m => simp [hs] at h
  answers := by
    intro s xs ys h
    induction xs generalizing s with
    | nil => exact absurd rfl h
    | cons x xs ih =>
      simp only [scan, List.cons_append] at h ⊢
      cases hs : step s x with
      | more t m =>
        simp only [hs, after_result] at h
        simp only [ih t h]
      | stop result t eaten m => rfl

/-- The marks after one element more, which is the `n`-th. -/
def put (n : ℕ) (m earlier : ι → Option ℤ) : ι → Option ℤ :=
  fun i => ((m i).map fun a => (n : ℤ) + a).or (earlier i)

theorem put_some {m : ι → Option ℤ} {i : ι} {a : ℤ} (h : m i = some a) (n : ℕ)
    (earlier : ι → Option ℤ) : put n m earlier i = some (n + a) := by
  simp [put, h]

theorem put_none {m : ι → Option ℤ} {i : ι} (h : m i = none) (n : ℕ) (earlier : ι → Option ℤ) :
    put n m earlier i = earlier i := by
  simp [put, h]

/-- `I` holds of a parser that asks for more, with the number of elements it has seen and
its marks, and `P` of an answer. -/
def Reply.Holds (I : σ → ℕ → (ι → Option ℤ) → Prop) (P : ρ → σ → ℕ → (ι → Option ℤ) → Prop)
    (r : Reply σ ι ρ) : Prop :=
  match r.result with
  | none => I r.next r.used r.mark
  | some result => P result r.next r.used r.mark

theorem Reply.Holds.asks {I : σ → ℕ → (ι → Option ℤ) → Prop}
    {P : ρ → σ → ℕ → (ι → Option ℤ) → Prop} {r : Reply σ ι ρ} (h : r.Holds I P)
    (hr : r.result = none) : I r.next r.used r.mark := by
  simpa only [Reply.Holds, hr] using h

theorem Reply.Holds.answers {I : σ → ℕ → (ι → Option ℤ) → Prop}
    {P : ρ → σ → ℕ → (ι → Option ℤ) → Prop} {r : Reply σ ι ρ} (h : r.Holds I P) {result : ρ}
    (hr : r.result = some result) : P result r.next r.used r.mark := by
  simpa only [Reply.Holds, hr] using h

/-- An invariant of the elements is one of the scan. -/
theorem scan_rule {step : σ → α → Step σ ι ρ} {I : σ → ℕ → (ι → Option ℤ) → Prop}
    {P : ρ → σ → ℕ → (ι → Option ℤ) → Prop}
    (more : ∀ s n m x t k, I s n m → step s x = .more t k → I t (n + 1) (put n k m))
    (stop : ∀ s n m x result t eaten k, I s n m → step s x = .stop result t eaten k →
      P result t (n + if eaten then 1 else 0) (put n k m)) :
    ∀ (xs : List α) (s : σ) (n : ℕ) (m : ι → Option ℤ), I s n m →
      ((scan step s xs).after n m).Holds I P := by
  intro xs
  induction xs with
  | nil =>
    intro s n m h
    exact h
  | cons x xs ih =>
    intro s n m h
    simp only [scan]
    cases hs : step s x with
    | more t k =>
      have hnext := ih t (n + 1) (put n k m) (more s n m x t k h hs)
      have heq : ((scan step t xs).after 1 k).after n m =
          (scan step t xs).after (n + 1) (put n k m) := after_after _ _ _ _ _
      rw [heq]
      exact hnext
    | stop result t eaten k => exact stop s n m x result t eaten k h hs

theorem scan_holds {step : σ → α → Step σ ι ρ} {I : σ → ℕ → (ι → Option ℤ) → Prop}
    {P : ρ → σ → ℕ → (ι → Option ℤ) → Prop}
    (more : ∀ s n m x t k, I s n m → step s x = .more t k → I t (n + 1) (put n k m))
    (stop : ∀ s n m x result t eaten k, I s n m → step s x = .stop result t eaten k →
      P result t (n + if eaten then 1 else 0) (put n k m)) {s : σ} (h : I s 0 fun _ => none)
    (xs : List α) : (scan step s xs).Holds I P := by
  have hrule := scan_rule more stop xs s 0 _ h
  rwa [after_zero] at hrule

end NgxWasm.Lib.Parsers
