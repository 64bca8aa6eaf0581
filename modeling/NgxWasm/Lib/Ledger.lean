import Mathlib.Data.List.Perm.Basic
import Mathlib.Data.List.Nodup

/-!
# Ledgers

What a component acquires and releases, in order. `Proper` says that nothing is
acquired while it is held and nothing is released that is not held; `held` is
what is left.
-/

namespace NgxWasm.Lib.Ledger

variable {ρ : Type*} [DecidableEq ρ]

inductive Act (ρ : Type*) where
  | acquire (r : ρ)
  | release (r : ρ)
  deriving Repr, DecidableEq

def held : List ρ → List (Act ρ) → List ρ
  | l, [] => l
  | l, .acquire r :: t => held (r :: l) t
  | l, .release r :: t => held (l.erase r) t

def Proper : List ρ → List (Act ρ) → Prop
  | _, [] => True
  | l, .acquire r :: t => r ∉ l ∧ Proper (r :: l) t
  | l, .release r :: t => r ∈ l ∧ Proper (l.erase r) t

theorem held_append (t u : List (Act ρ)) (l : List ρ) : held l (t ++ u) = held (held l t) u := by
  induction t generalizing l with
  | nil => rfl
  | cons a t ih =>
    cases a with
    | acquire r => exact ih (r :: l)
    | release r => exact ih (l.erase r)

theorem proper_append (t u : List (Act ρ)) (l : List ρ) :
    Proper l (t ++ u) ↔ Proper l t ∧ Proper (held l t) u := by
  induction t generalizing l with
  | nil => simp [Proper, held]
  | cons a t ih =>
    cases a with
    | acquire r => simp only [List.cons_append, Proper, held, ih, and_assoc]
    | release r => simp only [List.cons_append, Proper, held, ih, and_assoc]

/-- Things held once can be released one after the other. -/
theorem release_all {rs l : List ρ} (hnd : rs.Nodup) (h : ∀ r ∈ rs, r ∈ l) :
    Proper l (rs.map .release) ∧ held l (rs.map .release) = l.diff rs := by
  induction rs generalizing l with
  | nil => exact ⟨trivial, rfl⟩
  | cons r rs ih =>
    obtain ⟨hr, hnd⟩ := List.nodup_cons.mp hnd
    have hrest : ∀ x ∈ rs, x ∈ l.erase r := by
      intro x hx
      have hne : x ≠ r := fun he => hr (he ▸ hx)
      exact (List.mem_erase_of_ne hne).mpr (h x (List.mem_cons_of_mem _ hx))
    obtain ⟨hproper, hheld⟩ := ih hnd hrest
    refine ⟨⟨h r (List.mem_cons_self ..), hproper⟩, ?_⟩
    rw [List.diff_cons, ← hheld]
    rfl

theorem acquire_all {rs l : List ρ} (hnd : rs.Nodup) (h : ∀ r ∈ rs, r ∉ l) :
    Proper l (rs.map .acquire) ∧ held l (rs.map .acquire) = rs.reverse ++ l := by
  induction rs generalizing l with
  | nil => exact ⟨trivial, rfl⟩
  | cons r rs ih =>
    obtain ⟨hr, hnd⟩ := List.nodup_cons.mp hnd
    have hrest : ∀ x ∈ rs, x ∉ r :: l := by
      intro x hx hmem
      rcases List.mem_cons.mp hmem with rfl | hmem
      · exact hr hx
      · exact h x (List.mem_cons_of_mem _ hx) hmem
    obtain ⟨hproper, hheld⟩ := ih hnd hrest
    refine ⟨⟨h r (List.mem_cons_self ..), hproper⟩, ?_⟩
    rw [List.reverse_cons, List.append_assoc, List.singleton_append, ← hheld]
    rfl

theorem proper_release_iff {rs l : List ρ} (hnd : rs.Nodup) :
    Proper l (rs.map .release) ↔ ∀ r ∈ rs, r ∈ l := by
  refine ⟨?_, fun h => (release_all hnd h).1⟩
  intro h
  induction rs generalizing l with
  | nil => exact fun r hr => absurd hr (by simp)
  | cons x rs ih =>
    intro r hr
    rcases List.mem_cons.mp hr with rfl | hr
    · exact h.1
    · exact List.mem_of_mem_erase (ih (List.nodup_cons.mp hnd).2 h.2 r hr)

/-- What was acquired can be released in any order, and the rest is left. -/
theorem acquire_release {made owned : List ρ} (hmade : made.Nodup) (howned : owned.Nodup) :
    (Proper [] (made.map .acquire ++ owned.map .release) ↔ ∀ r ∈ owned, r ∈ made) ∧
      ((∀ r ∈ owned, r ∈ made) → ∀ r,
        r ∈ held [] (made.map .acquire ++ owned.map .release) ↔ r ∈ made ∧ r ∉ owned) := by
  obtain ⟨hproper, hheld⟩ := acquire_all (l := []) hmade fun r _ => by simp
  rw [proper_append, held_append, hheld, List.append_nil, proper_release_iff howned]
  constructor
  · simp only [hproper, true_and, List.mem_reverse]
  · intro hall r
    have hsub : ∀ r ∈ owned, r ∈ made.reverse := fun r hr => List.mem_reverse.mpr (hall r hr)
    rw [(release_all howned hsub).2, (List.nodup_reverse.mpr hmade).mem_sdiff_iff,
      List.mem_reverse]

end NgxWasm.Lib.Ledger
