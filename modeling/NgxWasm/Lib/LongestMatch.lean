import Mathlib.Data.List.Pairwise
import Mathlib.Data.BitVec
import Mathlib.Tactic.Common

/-!
# Longest match

Networks of `w`-bit addresses, the rule of a list that covers an address with the
longest prefix, and tables that look it up. Of two prefix masks the longer one is the
greater number.
-/

namespace NgxWasm.Lib.LongestMatch

variable {w v : ℕ} {α : Type}

structure Net (w : ℕ) where
  key : BitVec w
  mask : BitVec w
  deriving DecidableEq

def Net.Covers (n : Net w) (a : BitVec w) : Prop := a &&& n.mask = n.key &&& n.mask

instance (n : Net w) (a : BitVec w) : Decidable (n.Covers a) := inferInstanceAs (Decidable (_ = _))

/-- The mask is a number of leading ones. -/
def Net.IsPrefix (n : Net w) : Prop := ∃ l ≤ w, n.mask = BitVec.allOnes w <<< (w - l)

/-- Two networks with the same addresses. -/
def Net.Same (m n : Net w) : Prop := m.mask = n.mask ∧ m.key &&& m.mask = n.key &&& n.mask

instance (m n : Net w) : Decidable (m.Same n) := inferInstanceAs (Decidable (_ ∧ _))

/-- `t` is the value of a rule that covers `a` with a longest mask. -/
def Longest (rules : List (Net w × α)) (a : BitVec w) (t : α) : Prop :=
  ∃ n, (n, t) ∈ rules ∧ n.Covers a ∧ ∀ m u, (m, u) ∈ rules → m.Covers a → m.mask ≤ n.mask

def Covered (rules : List (Net w × α)) (a : BitVec w) : Prop := ∃ r ∈ rules, r.1.Covers a

theorem Longest.covered {rules : List (Net w × α)} {a : BitVec w} {t : α}
    (h : Longest rules a t) : Covered rules a := by
  obtain ⟨n, hn, hcovers, -⟩ := h
  exact ⟨(n, t), hn, hcovers⟩

/-- Only the rules that cover the address matter. -/
theorem longest_congr {rules rules' : List (Net w × α)} {a : BitVec w}
    (h : ∀ n u, n.Covers a → ((n, u) ∈ rules ↔ (n, u) ∈ rules')) (t : α) :
    Longest rules a t ↔ Longest rules' a t := by
  constructor
  · rintro ⟨n, hn, hcovers, hmax⟩
    refine ⟨n, (h n t hcovers).mp hn, hcovers, ?_⟩
    intro m u hm hc
    exact hmax m u ((h m u hc).mpr hm) hc
  · rintro ⟨n, hn, hcovers, hmax⟩
    refine ⟨n, (h n t hcovers).mpr hn, hcovers, ?_⟩
    intro m u hm hc
    exact hmax m u ((h m u hc).mp hm) hc

/-- Rules carried over to wider addresses. -/
theorem longest_map {rules : List (Net w × α)} {f : Net w → Net v} {a : BitVec w} {b : BitVec v}
    (hcovers : ∀ n, (f n).Covers b ↔ n.Covers a)
    (hmask : ∀ m n : Net w, (f m).mask ≤ (f n).mask ↔ m.mask ≤ n.mask) (t : α) :
    Longest (rules.map fun r => (f r.1, r.2)) b t ↔ Longest rules a t := by
  constructor
  · rintro ⟨n, hn, hc, hmax⟩
    obtain ⟨r, hr, heq⟩ := List.mem_map.mp hn
    cases heq
    refine ⟨r.1, hr, (hcovers r.1).mp hc, ?_⟩
    intro m u hm hmc
    exact (hmask m r.1).mp (hmax (f m) u (List.mem_map.mpr ⟨(m, u), hm, rfl⟩)
      ((hcovers m).mpr hmc))
  · rintro ⟨n, hn, hc, hmax⟩
    refine ⟨f n, List.mem_map.mpr ⟨(n, t), hn, rfl⟩, (hcovers n).mpr hc, ?_⟩
    intro m u hm hmc
    obtain ⟨r, hr, heq⟩ := List.mem_map.mp hm
    cases heq
    exact (hmask r.1 n).mpr (hmax r.1 r.2 hr ((hcovers r.1).mp hmc))

/-! ### The best rule of a list -/

def best : List (Net w × α) → BitVec w → Option (Net w × α)
  | [], _ => none
  | r :: rules, a =>
    if r.1.Covers a then
      match best rules a with
      | some s => if r.1.mask < s.1.mask then some s else some r
      | none => some r
    else best rules a

theorem best_none {rules : List (Net w × α)} {a : BitVec w} (h : best rules a = none) :
    ¬ Covered rules a := by
  induction rules with
  | nil => rintro ⟨r, hr, -⟩; cases hr
  | cons r rules ih =>
    simp only [best] at h
    split at h
    · split at h
      · split at h <;> cases h
      · cases h
    next hr =>
      rintro ⟨s, hs, hc⟩
      rcases List.mem_cons.mp hs with rfl | hs
      · exact hr hc
      · exact ih h ⟨s, hs, hc⟩

theorem best_some {rules : List (Net w × α)} {a : BitVec w} {r : Net w × α}
    (h : best rules a = some r) :
    r ∈ rules ∧ r.1.Covers a ∧ ∀ s ∈ rules, s.1.Covers a → s.1.mask ≤ r.1.mask := by
  induction rules generalizing r with
  | nil => cases h
  | cons x rules ih =>
    simp only [best] at h
    split at h
    next hx =>
      split at h
      next y hy =>
        obtain ⟨hmem, hc, hmax⟩ := ih hy
        split at h
        next hlt =>
          cases h
          refine ⟨List.mem_cons_of_mem _ hmem, hc, ?_⟩
          intro s hs hsc
          rcases List.mem_cons.mp hs with rfl | hs
          · exact BitVec.le_of_lt hlt
          · exact hmax s hs hsc
        next hge =>
          cases h
          refine ⟨List.mem_cons_self .., hx, ?_⟩
          intro s hs hsc
          rcases List.mem_cons.mp hs with rfl | hs
          · exact BitVec.le_refl _
          · exact BitVec.le_trans (hmax s hs hsc) (BitVec.not_lt.mp hge)
      next hnone =>
        cases h
        refine ⟨List.mem_cons_self .., hx, ?_⟩
        intro s hs hsc
        rcases List.mem_cons.mp hs with rfl | hs
        · exact BitVec.le_refl _
        · exact absurd ⟨s, hs, hsc⟩ (best_none hnone)
    next hx =>
      obtain ⟨hmem, hc, hmax⟩ := ih h
      refine ⟨List.mem_cons_of_mem _ hmem, hc, ?_⟩
      intro s hs hsc
      rcases List.mem_cons.mp hs with rfl | hs
      · exact absurd hsc hx
      · exact hmax s hs hsc

theorem longest_best {rules : List (Net w × α)} {a : BitVec w} {r : Net w × α}
    (h : best rules a = some r) : Longest rules a r.2 := by
  obtain ⟨hmem, hc, hmax⟩ := best_some h
  exact ⟨r.1, hmem, hc, fun m u hm hmc => hmax (m, u) hm hmc⟩

theorem Covered.longest {rules : List (Net w × α)} {a : BitVec w} (h : Covered rules a) :
    ∃ t, Longest rules a t := by
  cases hb : best rules a with
  | none => exact absurd h (best_none hb)
  | some r => exact ⟨r.2, longest_best hb⟩

/-! ### Tables -/

/-- What a lookup tree offers; an insertion can be refused. -/
structure Table (w : ℕ) (α : Type) where
  Tree : Type
  empty : Tree
  insert : Tree → Net w → α → Option Tree
  find : Tree → BitVec w → Option α

namespace Table

def load (T : Table w α) : T.Tree → List (Net w × α) → Option T.Tree
  | tree, [] => some tree
  | tree, (n, x) :: rules =>
    match T.insert tree n x with
    | some tree => T.load tree rules
    | none => none

/-- The lookup finds the value of the longest prefix among the rules that went in. -/
def Matches (T : Table w α) : Prop :=
  ∀ rules tree, (∀ r ∈ rules, Net.IsPrefix r.1) → T.load T.empty rules = some tree →
    ∀ a t, T.find tree a = some t ↔ Longest rules a t

theorem Matches.none_iff {T : Table w α} (hT : T.Matches) {rules : List (Net w × α)}
    {tree : T.Tree} (hrules : ∀ r ∈ rules, Net.IsPrefix r.1)
    (hload : T.load T.empty rules = some tree) (a : BitVec w) :
    T.find tree a = none ↔ ¬ Covered rules a := by
  constructor
  · intro hnone hcovered
    obtain ⟨t, ht⟩ := hcovered.longest
    rw [(hT rules tree hrules hload a t).mpr ht] at hnone
    cases hnone
  · intro hnot
    cases hf : T.find tree a with
    | none => rfl
    | some t => exact absurd ((hT rules tree hrules hload a t).mp hf).covered hnot

end Table

/-- The rules as a list, without two of the same addresses. -/
def listTable (w : ℕ) (α : Type) : Table w α where
  Tree := List (Net w × α)
  empty := []
  insert := fun rules n x =>
    if rules.any fun r => decide (r.1.Same n) then none else some (rules ++ [(n, x)])
  find := fun rules a => (best rules a).map Prod.snd

theorem listTable_load {rules : List (Net w × α)} : ∀ (start tree : List (Net w × α)),
    start.Pairwise (fun r s => ¬ r.1.Same s.1) →
    (listTable w α).load start rules = some tree →
    tree = start ++ rules ∧ tree.Pairwise fun r s => ¬ r.1.Same s.1 := by
  induction rules with
  | nil =>
    intro start tree hpair h
    cases h
    exact ⟨(List.append_nil _).symm, hpair⟩
  | cons r rules ih =>
    intro start tree hpair h
    obtain ⟨n, x⟩ := r
    simp only [Table.load, listTable] at h
    by_cases hany : (start.any fun r => decide (r.1.Same n)) = true
    · rw [if_pos hany] at h
      cases h
    · rw [if_neg hany] at h
      have hnone : ∀ r ∈ start, ¬ r.1.Same n := by simpa using hany
      have hpair' : (start ++ [(n, x)]).Pairwise fun r s => ¬ r.1.Same s.1 := by
        apply List.pairwise_append.mpr
        refine ⟨hpair, List.pairwise_singleton _ _, ?_⟩
        intro r hr s hs
        rw [List.mem_singleton.mp hs]
        exact hnone r hr
      obtain ⟨htree, hpairs⟩ := ih _ tree hpair' h
      exact ⟨by rw [htree, List.append_assoc]; rfl, hpairs⟩

theorem same_symm {m n : Net w} (h : m.Same n) : n.Same m := ⟨h.1.symm, h.2.symm⟩

theorem listTable_matches (w : ℕ) (α : Type) : (listTable w α).Matches := by
  intro rules tree _ hload a t
  obtain ⟨htree, hpairs⟩ := listTable_load [] tree List.Pairwise.nil hload
  rw [List.nil_append] at htree
  subst htree
  constructor
  · intro hf
    obtain ⟨r, hr, rfl⟩ := Option.map_eq_some_iff.mp hf
    exact longest_best hr
  · rintro ⟨n, hn, hc, hmax⟩
    cases hb : best tree a with
    | none => exact absurd ⟨(n, t), hn, hc⟩ (best_none hb)
    | some r =>
      obtain ⟨hmem, hrc, hrmax⟩ := best_some hb
      have hmask : r.1.mask = n.mask :=
        BitVec.le_antisymm (hmax r.1 r.2 hmem hrc) (hrmax (n, t) hn hc)
      have hsame : r.1.Same n := by
        refine ⟨hmask, ?_⟩
        rw [← show a &&& r.1.mask = r.1.key &&& r.1.mask from hrc, hmask]
        exact hc
      have heq : r = (n, t) := by
        by_contra hne
        have : Std.Symm fun r s : Net w × α => ¬ r.1.Same s.1 :=
          ⟨fun _ _ hrs hsr => hrs (same_symm hsr)⟩
        exact hpairs.forall hmem hn hne hsame
      simp only [listTable, hb, Option.map_some, heq]

end NgxWasm.Lib.LongestMatch
