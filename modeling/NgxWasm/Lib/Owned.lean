import NgxWasm.Lib.Links

/-!
# Cells with owners

Every cell has at most one owner. An owner's cells are chained if they only lead
to cells of the same owner, so that no cell is reachable from two owners.
-/

namespace NgxWasm.Lib.Owned
open Links

variable {α ω : Type*} {next next' : α → Option α} {own own' : α → Option ω} {o p : ω}

def Reaches (next : α → Option α) (a : Option α) (x : α) : Prop := ∃ k, x ∈ walk next k a

def Held (own : α → Option ω) (o : ω) (a : Option α) : Prop := ∀ x, a = some x → own x = some o

def Chained (next : α → Option α) (own : α → Option ω) (o : ω) : Prop :=
  ∀ x, own x = some o → ∃ xs, Seg next (some x) xs none ∧ ∀ y ∈ xs, own y = some o

/-- The owner has the cells of the chain and no other ones. -/
def Exactly (next : α → Option α) (own : α → Option ω) (o : ω) (a : Option α) : Prop :=
  ∃ xs, Seg next a xs none ∧ ∀ x, own x = some o ↔ x ∈ xs

theorem held_none : Held own o none := by
  intro x hx
  simp at hx

theorem held_some {x : α} (h : own x = some o) : Held own o (some x) := by
  intro y hy
  rw [← Option.some.inj hy]
  exact h

theorem held_frame {a : Option α} (h : Held own o a)
    (hown : ∀ x, own x = some o → own' x = some o) : Held own' o a :=
  fun x hx => hown x (h x hx)

/-! ### Reachability -/

theorem reaches_seg {xs : List α} {a : Option α} {x : α} (hs : Seg next a xs none) (hx : x ∈ xs) :
    Reaches next a x := by
  refine ⟨xs.length, ?_⟩
  rw [walk_seg hs le_rfl]
  exact hx

theorem chained_seg {a : Option α} (h : Chained next own o) (ha : Held own o a) :
    ∃ xs, Seg next a xs none ∧ ∀ y ∈ xs, own y = some o := by
  cases a with
  | none => exact ⟨[], rfl, by simp⟩
  | some x => exact h x (ha x rfl)

theorem chained_next {x : α} (h : Chained next own o) (hx : own x = some o) :
    Held own o (next x) := by
  obtain ⟨xs, hs, hown⟩ := h x hx
  cases xs with
  | nil => exact absurd hs (by simp [Seg])
  | cons y ys =>
    obtain ⟨he, hs⟩ := hs
    obtain rfl : x = y := Option.some.inj he
    intro z hz
    cases ys with
    | nil => exact absurd (hz.symm.trans hs) (by simp)
    | cons w ws =>
      obtain rfl : z = w := Option.some.inj (hz.symm.trans hs.1)
      exact hown z (by simp)

/-- What a chain reaches has the owner of the chain. -/
theorem reaches_held {a : Option α} {x : α} (h : Chained next own o) (ha : Held own o a)
    (hr : Reaches next a x) : own x = some o := by
  obtain ⟨k, hk⟩ := hr
  induction k generalizing a with
  | zero => simp [walk] at hk
  | succ k ih =>
    cases a with
    | none => simp [walk] at hk
    | some y =>
      rcases List.mem_cons.mp hk with rfl | hk
      · exact ha x rfl
      · exact ih (chained_next h (ha y rfl)) hk

/-! ### Changes -/

theorem chained_frame (h : Chained next own o) (hown : ∀ x, own' x = some o ↔ own x = some o)
    (hnext : ∀ x, own x = some o → next' x = next x) : Chained next' own' o := by
  intro x hx
  obtain ⟨xs, hs, hxs⟩ := h x ((hown x).mp hx)
  exact ⟨xs, seg_congr (fun y hy => hnext y (hxs y hy)) hs, fun y hy => (hown y).mpr (hxs y hy)⟩

theorem exactly_chained {a : Option α} (h : Exactly next own o a) : Chained next own o := by
  obtain ⟨xs, hs, hown⟩ := h
  intro x hx
  obtain ⟨zs, hz, hsub⟩ := seg_suffix hs ((hown x).mp hx)
  exact ⟨x :: zs, hz, fun z hm => (hown z).mpr (hsub z hm)⟩

theorem exactly_held {a : Option α} (h : Exactly next own o a) : Held own o a := by
  obtain ⟨xs, hs, hown⟩ := h
  intro x hx
  cases xs with
  | nil => exact absurd (hx.symm.trans hs) (by simp)
  | cons y ys =>
    obtain rfl : x = y := Option.some.inj (hx.symm.trans hs.1)
    exact (hown x).mpr (List.mem_cons_self ..)

theorem exactly_frame {a : Option α} (h : Exactly next own o a)
    (hown : ∀ x, own' x = some o ↔ own x = some o)
    (hnext : ∀ x, own x = some o → next' x = next x) : Exactly next' own' o a := by
  obtain ⟨xs, hs, hxs⟩ := h
  exact ⟨xs, seg_congr (fun y hy => hnext y ((hxs y).mpr hy)) hs, fun x => (hown x).trans (hxs x)⟩

section

variable [DecidableEq α]

/-- The first cell is taken off the chain. -/
theorem exactly_pop {x : α} (h : Exactly next own o (some x)) :
    Exactly next (Function.update own x none) o (next x) := by
  obtain ⟨xs, hs, hown⟩ := h
  have hd := seg_nodup hs
  cases xs with
  | nil => exact absurd hs (by simp [Seg])
  | cons y ys =>
    obtain ⟨he, hs⟩ := hs
    obtain rfl : x = y := Option.some.inj he
    have hx : x ∉ ys := (List.nodup_cons.mp hd).1
    refine ⟨ys, hs, fun z => ?_⟩
    by_cases hz : z = x
    · subst hz
      simp [hx]
    · rw [Function.update_of_ne hz, hown z, List.mem_cons]
      simp [hz]

/-- A cell without owner and without successor is given to the owner. -/
theorem chained_attach {x : α} (h : Chained next own o) (hx : own x = none) (hn : next x = none) :
    Chained next (Function.update own x (some o)) o := by
  intro y hy
  by_cases hyx : y = x
  · subst hyx
    exact ⟨[y], ⟨rfl, hn⟩, by simp⟩
  · rw [Function.update_of_ne hyx] at hy
    obtain ⟨xs, hs, hxs⟩ := h y hy
    refine ⟨xs, hs, fun z hz => ?_⟩
    have hzx : z ≠ x := by
      rintro rfl
      exact absurd ((hxs z hz).symm.trans hx) (by simp)
    rw [Function.update_of_ne hzx]
    exact hxs z hz

/-- A cell is linked to a chain of the same owner that it is not part of. -/
theorem chained_relink {l : α} {t : Option α} {ts : List α} (h : Chained next own o)
    (hs : Seg next t ts none) (hts : ∀ y ∈ ts, own y = some o) (hl : l ∉ ts) :
    Chained (Function.update next l t) own o := by
  intro x hx
  obtain ⟨xs, hseg, hxs⟩ := h x hx
  have hother : ∀ y, y ≠ l → Function.update next l t y = next y :=
    fun y hy => Function.update_of_ne hy _ _
  by_cases hlx : l ∈ xs
  · obtain ⟨ys, zs, rfl⟩ := List.append_of_mem hlx
    have hys : l ∉ ys := by
      have hd := seg_nodup hseg
      rw [List.nodup_append] at hd
      exact fun hy => hd.2.2 l hy l (List.mem_cons_self ..) rfl
    have hfront : Seg next (some x) (ys ++ [l]) (next l) := by
      obtain ⟨m, hy, rfl, -⟩ := seg_append.mp hseg
      exact seg_snoc.mpr ⟨hy, rfl⟩
    refine ⟨ys ++ l :: ts, seg_relink hfront (fun y hy => hother y fun he => hys (he ▸ hy)) ?_, ?_⟩
    · rw [Function.update_self]
      exact seg_congr (fun y hy => hother y fun he => hl (he ▸ hy)) hs
    · intro y hy
      rcases List.mem_append.mp hy with hy | hy
      · exact hxs y (List.mem_append_left _ hy)
      · rcases List.mem_cons.mp hy with rfl | hy
        · exact hxs y (List.mem_append_right _ (List.mem_cons_self ..))
        · exact hts y hy
  · exact ⟨xs, seg_congr (fun y hy => hother y fun he => hlx (he ▸ hy)) hseg, hxs⟩

/-- The cells of a chain go to the owner of the chain that they are put in front of. -/
theorem chained_pushAll {xs : List α} {a top : Option α} {k : ℕ} (h : Chained next own o)
    (htop : Held own o top) (hs : Seg next a xs none) (hxs : ∀ x ∈ xs, own x ≠ some o)
    (hk : xs.length ≤ k) (hown : ∀ x, own' x = some o ↔ x ∈ xs ∨ own x = some o) :
    Chained (pushAll k next top a).1 own' o ∧ Held own' o (pushAll k next top a).2 := by
  obtain ⟨ts, ht, hts⟩ := chained_seg h htop
  obtain ⟨hseg, hkeep⟩ := pushAll_seg hs ht (fun x hx hmem => hxs x hx (hts x hmem)) hk
  have hmem : ∀ y ∈ xs.reverse ++ ts, own' y = some o := by
    intro y hy
    rcases List.mem_append.mp hy with hy | hy
    · exact (hown y).mpr (.inl (List.mem_reverse.mp hy))
    · exact (hown y).mpr (.inr (hts y hy))
  constructor
  · intro x hx
    rcases (hown x).mp hx with hx | hx
    · obtain ⟨zs, hz, hsub⟩ :=
        seg_suffix hseg (List.mem_append_left ts (List.mem_reverse.mpr hx))
      exact ⟨x :: zs, hz, fun z hm => hmem z (hsub z hm)⟩
    · obtain ⟨ys, hy, hys⟩ := h x hx
      refine ⟨ys, seg_congr (fun y hm => hkeep y fun hyx => hxs y hyx (hys y hm)) hy, ?_⟩
      exact fun y hm => (hown y).mpr (.inr (hys y hm))
  · intro x hx
    generalize hl : xs.reverse ++ ts = ls at hseg hmem
    cases ls with
    | nil => exact absurd (hx.symm.trans hseg) (by simp)
    | cons y ys =>
      obtain rfl : x = y := Option.some.inj (hx.symm.trans hseg.1)
      exact hmem x (List.mem_cons_self ..)

theorem exactly_pushAll {xs : List α} {a top : Option α} {k : ℕ} (h : Exactly next own o top)
    (hs : Seg next a xs none) (hxs : ∀ x ∈ xs, own x ≠ some o) (hk : xs.length ≤ k)
    (hown : ∀ x, own' x = some o ↔ x ∈ xs ∨ own x = some o) :
    Exactly (pushAll k next top a).1 own' o (pushAll k next top a).2 := by
  obtain ⟨ts, ht, hts⟩ := h
  obtain ⟨hseg, -⟩ := pushAll_seg hs ht (fun x hx hmem => hxs x hx ((hts x).mpr hmem)) hk
  refine ⟨_, hseg, fun x => ?_⟩
  rw [hown x, hts x, List.mem_append, List.mem_reverse]

end

end NgxWasm.Lib.Owned
