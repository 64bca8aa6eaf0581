import Mathlib.Data.List.Basic
import Mathlib.Data.List.Nodup
import Mathlib.Data.Option.Basic
import Mathlib.Logic.Function.Basic

/-!
# Doubly linked queues with a head

The links of a queue live in its members. A node is a member or the head (`none`
of `Option α`); a link holds a node or, in a member that was never linked, no
address at all. `Rep q xs` says that the links close a ring which visits `xs`.
Unlinking a member leaves its own two links as they were.
-/

namespace NgxWasm.Lib.LinkedQueue

structure Queue (α : Type*) where
  next : Option α → Option (Option α)
  prev : Option α → Option (Option α)

variable {α : Type*}

namespace Queue

/-- Only the head is linked, with itself. -/
def init : Queue α where
  next a := if a.isNone then some none else none
  prev a := if a.isNone then some none else none

def isEmpty (q : Queue α) : Bool := q.prev none matches some none

/-- Members behind the node `a`, at most `k` of them. -/
def after (q : Queue α) : ℕ → Option α → List α
  | 0, _ => []
  | k + 1, a =>
    match q.next a with
    | some (some x) => x :: q.after k (some x)
    | _ => []

variable [DecidableEq α]

/-- `none` where an address is missing. -/
def insertTail (q : Queue α) (x : α) : Option (Queue α) :=
  match q.prev none with
  | none => none
  | some p => some
    { next := Function.update (Function.update q.next p (some (some x))) (some x) (some none)
      prev := Function.update (Function.update q.prev (some x) (some p)) none (some (some x)) }

def remove (q : Queue α) (x : α) : Option (Queue α) :=
  match q.next (some x) with
  | none => none
  | some n =>
    let prev := Function.update q.prev n (q.prev (some x))
    match prev (some x) with
    | none => none
    | some p => some { next := Function.update q.next p (q.next (some x)), prev }

end Queue

open Queue

section Segments

variable {q : Queue α} {a b : Option α} {x : α} {xs ys : List α}

/-- The node `b` stands behind `a`. -/
def Linked (q : Queue α) (a b : Option α) : Prop :=
  q.next a = some b ∧ q.prev b = some a

/-- From the node `a` through `xs` to the node `b`. -/
def Seg (q : Queue α) : Option α → List α → Option α → Prop
  | a, [], b => Linked q a b
  | a, x :: xs, b => Linked q a (some x) ∧ Seg q (some x) xs b

theorem seg_append : Seg q a (xs ++ x :: ys) b ↔ Seg q a xs (some x) ∧ Seg q (some x) ys b := by
  induction xs generalizing a with
  | nil => exact Iff.rfl
  | cons y xs ih => simp only [List.cons_append, Seg, ih, and_assoc]

theorem Seg.congr {q' : Queue α} (h : Seg q a xs b)
    (hn : ∀ c ∈ a :: xs.map some, q'.next c = q.next c)
    (hp : ∀ c ∈ xs.map some ++ [b], q'.prev c = q.prev c) : Seg q' a xs b := by
  induction xs generalizing a with
  | nil => exact ⟨(hn a (by simp)).trans h.1, (hp b (by simp)).trans h.2⟩
  | cons x xs ih =>
    obtain ⟨hl, hs⟩ := h
    have hfirst : Linked q' a (some x) :=
      ⟨(hn a (by simp)).trans hl.1, (hp (some x) (by simp)).trans hl.2⟩
    refine ⟨hfirst, ih hs ?_ ?_⟩
    · intro c hc
      exact hn c (List.mem_cons_of_mem _ hc)
    · intro c hc
      exact hp c (List.mem_cons_of_mem _ hc)

/-- The last node of a segment, and the segment with another end behind it. -/
theorem Seg.last (h : Seg q a xs b) (hnd : (a :: xs.map some).Nodup) :
    ∃ p ∈ a :: xs.map some, Linked q p b ∧
      ∀ (q' : Queue α) (c : Option α),
        (∀ d ∈ a :: xs.map some, d ≠ p → q'.next d = q.next d) →
        (∀ d ∈ xs.map some, q'.prev d = q.prev d) → Linked q' p c → Seg q' a xs c := by
  induction xs generalizing a with
  | nil => exact ⟨a, by simp, h, fun q' c _ _ hl => hl⟩
  | cons x xs ih =>
    obtain ⟨hl, hs⟩ := h
    obtain ⟨ha, hnd⟩ := List.nodup_cons.mp hnd
    obtain ⟨p, hp, hpb, hrest⟩ := ih hs hnd
    refine ⟨p, List.mem_cons_of_mem _ hp, hpb, ?_⟩
    intro q' c hn hv hlast
    have hap : a ≠ p := fun heq => ha (heq ▸ hp)
    have hfirst : Linked q' a (some x) :=
      ⟨(hn a (by simp) hap).trans hl.1, (hv (some x) (by simp)).trans hl.2⟩
    refine ⟨hfirst, hrest q' c ?_ ?_ hlast⟩
    · intro d hd
      exact hn d (List.mem_cons_of_mem _ hd)
    · intro d hd
      exact hv d (List.mem_cons_of_mem _ hd)

theorem Seg.mem_of_after {k : ℕ} (h : Seg q a xs none) (hx : x ∈ q.after k a) : x ∈ xs := by
  induction k generalizing a xs with
  | zero => simp [after] at hx
  | succ k ih =>
    cases xs with
    | nil => simp [after, h.1] at hx
    | cons y xs =>
      simp only [after, h.1.1, List.mem_cons] at hx ⊢
      exact hx.imp_right (ih h.2)

end Segments

section Rings

variable {q q' : Queue α} {x : α} {xs : List α}

structure Rep (q : Queue α) (xs : List α) : Prop where
  nodup : xs.Nodup
  seg : Seg q none xs none

theorem Rep.nodes (h : Rep q xs) : (none :: xs.map some).Nodup := by
  simp only [List.nodup_cons, List.mem_map, reduceCtorEq, and_false, exists_false,
    not_false_eq_true, true_and]
  exact h.nodup.map (Option.some_injective _)

theorem rep_init : Rep (init : Queue α) [] := ⟨List.nodup_nil, rfl, rfl⟩

theorem Rep.isEmpty_iff (h : Rep q xs) : q.isEmpty = true ↔ xs = [] := by
  obtain ⟨p, hp, hl, -⟩ := h.seg.last h.nodes
  cases xs with
  | nil => simp only [isEmpty, h.seg.2]
  | cons y xs =>
    -- the node before the head is a member
    obtain ⟨hseg, hrest⟩ := h.seg
    have hne : (some y :: xs.map some).Nodup := (List.nodup_cons.mp h.nodes).2
    obtain ⟨l, hmem, hlast, -⟩ := hrest.last hne
    cases l with
    | none => simp at hmem
    | some l => simp [isEmpty, hlast.2]

variable [DecidableEq α]

theorem Rep.insertTail (h : Rep q xs) (hx : x ∉ xs) :
    ∃ q', q.insertTail x = some q' ∧ Rep q' (xs ++ [x]) ∧
      ∀ y, y ≠ x → q.next (some y) = none → y ∉ xs → q'.next (some y) = none := by
  obtain ⟨p, hp, hl, hmove⟩ := h.seg.last h.nodes
  have hpx : p ≠ some x := by
    intro heq
    rw [heq] at hp
    simp [hx] at hp
  simp only [Queue.insertTail, hl.2]
  refine ⟨_, rfl, ⟨?_, ?_⟩, ?_⟩
  · exact List.nodup_append.mpr ⟨h.nodup, List.nodup_singleton x, by
      intro a ha b hb heq
      rw [List.mem_singleton] at hb
      exact hx (hb ▸ heq ▸ ha)⟩
  · rw [seg_append]
    refine ⟨hmove _ _ ?_ ?_ ?_, ?_⟩
    · intro d hd hdp
      have hdx : d ≠ some x := by
        intro heq
        rw [heq] at hd
        simp [hx] at hd
      exact (Function.update_of_ne hdx _ _).trans (Function.update_of_ne hdp _ _)
    · intro d hd
      obtain ⟨y, hy, rfl⟩ := List.mem_map.mp hd
      have hyx : some y ≠ some x := fun heq => hx (Option.some.inj heq ▸ hy)
      simp only [Function.update_of_ne (Option.some_ne_none y), Function.update_of_ne hyx]
    · exact ⟨by simp [Function.update_of_ne hpx], by simp⟩
    · exact ⟨by simp, by simp⟩
  · intro y hyx hy hmem
    have hyp : some y ≠ p := by
      intro heq
      rw [← heq] at hp
      simp [hmem] at hp
    have hyx' : some y ≠ some x := fun heq => hyx (Option.some.inj heq)
    exact (Function.update_of_ne hyx' _ _).trans ((Function.update_of_ne hyp _ _).trans hy)

theorem Rep.remove (h : Rep q xs) (hx : x ∈ xs) :
    ∃ q', q.remove x = some q' ∧ Rep q' (xs.erase x) ∧
      ∀ y, q.next (some y) = none → y ∉ xs → q'.next (some y) = none := by
  obtain ⟨ys, zs, rfl⟩ := List.append_of_mem hx
  have hnd := h.nodup
  rw [List.nodup_middle, List.nodup_cons, List.mem_append, not_or] at hnd
  obtain ⟨⟨hys, hzs⟩, hnd⟩ := hnd
  have hyznd := List.nodup_append.mp hnd
  obtain ⟨hfront, hback⟩ := seg_append.mp h.seg
  have hnodes : (none :: ys.map some).Nodup := by
    simp only [List.nodup_cons, List.mem_map, reduceCtorEq, and_false, exists_false,
      not_false_eq_true, true_and]
    exact hyznd.1.map (Option.some_injective _)
  obtain ⟨p, hp, hpx, hmove⟩ := hfront.last hnodes
  have hpne : p ≠ some x := by
    intro heq
    rw [heq] at hp
    simp [hys] at hp
  have herase : (ys ++ x :: zs).erase x = ys ++ zs := by
    rw [List.erase_append_right _ hys, List.erase_cons_head]
  have hfree : ∀ y, y ∉ ys ++ x :: zs → some y ≠ p := by
    intro y hy heq
    rw [← heq] at hp
    simp only [List.mem_cons, List.mem_map, reduceCtorEq, false_or, Option.some.injEq,
      exists_eq_right] at hp
    exact hy (List.mem_append_left _ hp)
  rw [herase]
  cases zs with
  | nil =>
    have hxn : Linked q (some x) none := hback
    simp only [Queue.remove, hxn.1, hpx.2, Function.update_of_ne (Option.some_ne_none x)]
    refine ⟨_, rfl, ⟨hnd, ?_⟩, ?_⟩
    · rw [List.append_nil]
      refine hmove _ _ ?_ ?_ ?_
      · intro d hd hdp
        exact Function.update_of_ne hdp _ _
      · intro d hd
        obtain ⟨y, hy, rfl⟩ := List.mem_map.mp hd
        simp only [Function.update_of_ne (Option.some_ne_none y)]
      · exact ⟨by simp, by simp⟩
    · intro y hy hmem
      exact (Function.update_of_ne (hfree y hmem) _ _).trans hy
  | cons z zs =>
    obtain ⟨hxz, hrest⟩ := hback
    have hzx : some x ≠ some z := by
      intro heq
      exact hzs (Option.some.inj heq ▸ List.mem_cons_self ..)
    simp only [Queue.remove, hxz.1, hpx.2, Function.update_of_ne hzx]
    have hzp : ∀ c ∈ z :: zs, some c ≠ p := by
      intro c hc heq
      rw [← heq] at hp
      simp only [List.mem_cons, List.mem_map, reduceCtorEq, false_or, Option.some.injEq,
        exists_eq_right] at hp
      exact hyznd.2.2 c hp c hc rfl
    have hznd := List.nodup_cons.mp hyznd.2.1
    refine ⟨_, rfl, ⟨hnd, ?_⟩, ?_⟩
    · rw [seg_append]
      refine ⟨hmove _ _ ?_ ?_ ?_, hrest.congr ?_ ?_⟩
      · intro d hd hdp
        exact Function.update_of_ne hdp _ _
      · intro d hd
        obtain ⟨y, hy, rfl⟩ := List.mem_map.mp hd
        have hyz : some y ≠ some z := fun heq =>
          hyznd.2.2 y hy z (List.mem_cons_self ..) (Option.some.inj heq)
        exact Function.update_of_ne hyz _ _
      · exact ⟨by simp, by simp⟩
      · intro c hc
        rw [← List.map_cons] at hc
        obtain ⟨d, hd, rfl⟩ := List.mem_map.mp hc
        exact Function.update_of_ne (hzp d hd) _ _
      · intro c hc
        have hcz : c ≠ some z := by
          intro heq
          rw [heq] at hc
          simp [hznd.1] at hc
        exact Function.update_of_ne hcz _ _
    · intro y hy hmem
      exact (Function.update_of_ne (hfree y hmem) _ _).trans hy

/-- A member that was never linked has no address to follow. -/
theorem remove_none (h : q.next (some x) = none) : q.remove x = none := by
  simp only [Queue.remove, h]

end Rings

end NgxWasm.Lib.LinkedQueue
