import Mathlib.Data.List.Basic

/-!
# Traces

A trace grows at its end. `Each P` says that every event of it meets `P` together
with what came before it.
-/

namespace NgxWasm.Lib.Trace

variable {ε : Type*}

def Each (P : List ε → ε → Prop) (t : List ε) : Prop :=
  ∀ before e after, t = before ++ e :: after → P before e

theorem each_nil (P : List ε → ε → Prop) : Each P [] := by
  intro before e after h
  simp at h

theorem Each.snoc {P : List ε → ε → Prop} {t : List ε} (h : Each P t) {x : ε} (hx : P t x) :
    Each P (t ++ [x]) := by
  intro before e after heq
  rcases List.eq_nil_or_concat after with rfl | ⟨after', y, rfl⟩
  · obtain ⟨hinit, hlast⟩ := List.append_inj' heq rfl
    rw [← hinit, ← List.head_eq_of_cons_eq hlast]
    exact hx
  · have hsplit : t ++ [x] = (before ++ e :: after') ++ [y] := by
      rw [heq]
      simp
    exact h before e after' (List.append_inj' hsplit rfl).1

theorem Each.of_initial {P : List ε → ε → Prop} {t u : List ε} (h : Each P u) (hinit : t <+: u) :
    Each P t := by
  obtain ⟨rest, rfl⟩ := hinit
  intro before e after heq
  apply h before e (after ++ rest)
  rw [heq, List.append_assoc, List.cons_append]

end NgxWasm.Lib.Trace
