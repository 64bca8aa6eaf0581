import Mathlib.Data.List.Basic

/-!
# Lists with one entry a key

`upsert` replaces the entry of the same key in its place, or appends. Folded over a list it
keeps the order of first occurrence and the last entry of each key.
-/

namespace NgxWasm.Lib.Upsert

variable {α : Type*} (same : α → α → Prop) [DecidableRel same]

def upsert (x : α) : List α → List α
  | [] => [x]
  | y :: l => if same x y then x :: l else y :: upsert x l

def upsertAll (l xs : List α) : List α := xs.foldl (fun l x => upsert same x l) l

variable {same}

theorem upsert_new {x : α} {l : List α} (h : ∀ y ∈ l, ¬ same x y) : upsert same x l = l ++ [x] := by
  induction l with
  | nil => rfl
  | cons y l ih =>
    rw [upsert, if_neg (h y (List.mem_cons_self ..)),
      ih (fun z hz => h z (List.mem_cons_of_mem _ hz)), List.cons_append]

theorem upsert_at {x y : α} {a c : List α} (ha : ∀ z ∈ a, ¬ same x z) (hy : same x y) :
    upsert same x (a ++ y :: c) = a ++ x :: c := by
  induction a with
  | nil => exact if_pos hy
  | cons z a ih =>
    rw [List.cons_append, upsert, if_neg (ha z (List.mem_cons_self ..)),
      ih (fun w hw => ha w (List.mem_cons_of_mem _ hw)), List.cons_append]

theorem mem_upsert_self (x : α) (l : List α) : x ∈ upsert same x l := by
  induction l with
  | nil => exact List.mem_singleton_self x
  | cons y l ih =>
    unfold upsert
    split
    · exact List.mem_cons_self ..
    · exact List.mem_cons_of_mem _ ih

/-- A key that has an entry keeps one. -/
theorem upsert_keeps {P : α → Prop} (hP : ∀ x y, same x y → P y → P x) (x : α) {l : List α}
    (h : ∃ y ∈ l, P y) : ∃ y ∈ upsert same x l, P y := by
  induction l with
  | nil => exact absurd h (by simp)
  | cons z l ih =>
    obtain ⟨y, hy, hyP⟩ := h
    unfold upsert
    split
    · next hsame =>
      rcases List.mem_cons.mp hy with rfl | hy
      · exact ⟨x, List.mem_cons_self .., hP x y hsame hyP⟩
      · exact ⟨y, List.mem_cons_of_mem _ hy, hyP⟩
    · rcases List.mem_cons.mp hy with rfl | hy
      · exact ⟨y, List.mem_cons_self .., hyP⟩
      · obtain ⟨w, hw, hwP⟩ := ih ⟨y, hy, hyP⟩
        exact ⟨w, List.mem_cons_of_mem _ hw, hwP⟩

theorem upsertAll_snoc (l xs : List α) (x : α) :
    upsertAll same l (xs ++ [x]) = upsert same x (upsertAll same l xs) :=
  List.foldl_append

/-- Every key that is given has an entry at the end. -/
theorem upsertAll_has {P : α → Prop} (hP : ∀ x y, same x y → P y → P x) (xs l : List α)
    (h : ∃ y ∈ l ++ xs, P y) : ∃ y ∈ upsertAll same l xs, P y := by
  induction xs generalizing l with
  | nil => rwa [List.append_nil] at h
  | cons x xs ih =>
    apply ih
    obtain ⟨y, hy, hyP⟩ := h
    rcases List.mem_append.mp hy with hy | hy
    · obtain ⟨z, hz, hzP⟩ := upsert_keeps hP x ⟨y, hy, hyP⟩
      exact ⟨z, List.mem_append_left _ hz, hzP⟩
    · rcases List.mem_cons.mp hy with rfl | hy
      · exact ⟨y, List.mem_append_left _ (mem_upsert_self y l), hyP⟩
      · exact ⟨y, List.mem_append_right _ hy, hyP⟩

end NgxWasm.Lib.Upsert
