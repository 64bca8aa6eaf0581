import NgxWasm.ProxyWasm.Pairs
import Mathlib.Algebra.BigOperators.Group.List.Basic
import Mathlib.Data.List.Basic
import Mathlib.Tactic.Common

/-!
# The sizing pass and the writing pass

Both are brought to the same form: how many live pairs of the list and how many
extras a pass takes. The sizing pass takes list pairs first and tests the limit
after adding an extra; the writing pass takes extras first and stops at the limit.
-/

namespace NgxWasm.ProxyWasm.Pairs

open NgxWasm

variable {α : Type}

def liveOf (elts : List Elt) : List Elt := elts.filter fun e => e.hash != 0

@[simp] theorem liveOf_nil : liveOf [] = [] := rfl

theorem liveOf_cons_dead {e : Elt} (h : e.hash = 0) (elts : List Elt) :
    liveOf (e :: elts) = liveOf elts := by
  simp [liveOf, h]

theorem liveOf_cons_live {e : Elt} (h : e.hash ≠ 0) (elts : List Elt) :
    liveOf (e :: elts) = e :: liveOf elts := by
  simp [liveOf, h]

theorem HeaderList.live_eq (list : HeaderList) : list.live = liveOf list.parts.flatten := rfl

/-- A loop that goes on through every live element. -/
theorem walkPart_false (more : α → Bool) (visit : α → Elt → α × Bool) (p q : List Elt) (a : α) :
    walkPart more visit (p ++ q) a =
      match walkPart more visit p a with
      | (a, true) => (a, true)
      | (a, false) => walkPart more visit q a := by
  induction p generalizing a with
  | nil => rfl
  | cons e p ih =>
    simp only [List.cons_append, walkPart]
    by_cases hm : more a
    · simp only [hm, ↓reduceIte]
      by_cases hh : e.hash == 0
      · simp only [hh, ↓reduceIte]
        exact ih a
      · simp only [hh, Bool.false_eq_true, ↓reduceIte]
        rcases visit a e with ⟨b, left⟩
        cases left with
        | true => rfl
        | false => exact ih b
    · simp only [hm, Bool.false_eq_true, ↓reduceIte]

/-- How a list is cut into parts is invisible. -/
theorem walk_flatten (more : α → Bool) (visit : α → Elt → α × Bool) (parts : List (List Elt))
    (a : α) : walk more visit parts a = (walkPart more visit parts.flatten a).1 := by
  induction parts generalizing a with
  | nil => rfl
  | cons p parts ih =>
    rw [List.flatten_cons, walkPart_false, walk]
    rcases walkPart more visit p a with ⟨b, left⟩
    cases left with
    | true => rfl
    | false => exact ih b

theorem walkPart_count (elts : List Elt) (c : ℕ) :
    walkPart (fun _ => true) (fun c _ => (c + 1, false)) elts c =
      (c + (liveOf elts).length, false) := by
  induction elts generalizing c with
  | nil => rfl
  | cons e elts ih =>
    by_cases h : e.hash = 0
    · simp only [walkPart, h, liveOf_cons_dead, beq_self_eq_true, ↓reduceIte, ih]
    · simp only [walkPart, beq_iff_eq, h, liveOf_cons_live h, ↓reduceIte, ih, List.length_cons]
      simp only [Prod.mk.injEq, and_true]
      omega

theorem pairsCount_eq (list : HeaderList) : pairsCount list = list.live.length := by
  rw [pairsCount, walk_flatten, walkPart_count, list.live_eq, Nat.zero_add]

/-- Bytes of a run of pairs. -/
def total (elts : List Elt) : ℕ := (elts.map pairSize).sum

@[simp] theorem total_nil : total [] = 0 := rfl

@[simp] theorem total_cons (e : Elt) (elts : List Elt) :
    total (e :: elts) = pairSize e + total elts := by
  simp [total]

theorem total_append (xs ys : List Elt) : total (xs ++ ys) = total xs + total ys := by
  simp [total]

theorem total_take_add_drop (xs : List Elt) (n : ℕ) :
    total (xs.take n) + total (xs.drop n) = total xs := by
  rw [← total_append, List.take_append_drop]

theorem pairSize_pos (e : Elt) : 0 < pairSize e := by
  unfold pairSize
  omega

theorem total_eq_zero {xs : List Elt} (h : total xs = 0) : xs = [] := by
  cases xs with
  | nil => rfl
  | cons e xs =>
    have := pairSize_pos e
    rw [total_cons] at h
    omega

/-- Pairs of the list that the sizing pass adds. -/
def limit (max len : ℕ) : ℕ := if max = 0 then len else min len max

theorem walkPart_size (max : ℕ) (elts : List Elt) (size n : ℕ) (hn : max = 0 ∨ n < max) :
    (walkPart (fun _ => true)
      (fun (st : ℕ × ℕ) e => ((st.1 + pairSize e, st.2 + 1), decide (max ≠ 0 ∧ max ≤ st.2 + 1)))
      elts (size, n)).1 =
    (size + total ((liveOf elts).take (limit (max - n) (liveOf elts).length)),
      n + limit (max - n) (liveOf elts).length) := by
  induction elts generalizing size n with
  | nil => simp [walkPart, limit]
  | cons e elts ih =>
    by_cases hh : e.hash = 0
    · simp only [walkPart, hh, liveOf_cons_dead hh, beq_self_eq_true, ↓reduceIte]
      exact ih size n hn
    · rw [liveOf_cons_live hh]
      simp only [walkPart, beq_iff_eq, hh, ↓reduceIte]
      by_cases hlast : max ≠ 0 ∧ max ≤ n + 1
      · -- the limit is reached with this pair
        have hone : limit (max - n) (e :: liveOf elts).length = 1 := by
          simp only [limit, List.length_cons]
          split <;> omega
        simp only [hlast, hone, decide_true, not_false_eq_true, and_self, ne_eq]
        simp
      · have hn' : max = 0 ∨ n + 1 < max := by omega
        have hmore : limit (max - n) (e :: liveOf elts).length =
            limit (max - (n + 1)) (liveOf elts).length + 1 := by
          simp only [limit, List.length_cons]
          split <;> split <;> omega
        simp only [hlast, decide_false, ih _ _ hn', hmore, List.take_succ_cons, total_cons]
        simp only [Prod.mk.injEq]
        omega

theorem sizeExtras_eq (max : ℕ) (elts : List Elt) (size n : ℕ) :
    sizeExtras max elts (size, n) =
      size + total (elts.take (if max = 0 then elts.length else max - n + 1)) := by
  induction elts generalizing size n with
  | nil => simp [sizeExtras]
  | cons e elts ih =>
    rw [sizeExtras]
    by_cases hlast : max ≠ 0 ∧ max ≤ n
    · have hone : (if max = 0 then (e :: elts).length else max - n + 1) = 1 := by
        rw [if_neg hlast.1]
        omega
      rw [if_pos hlast, hone]
      simp
    · rw [if_neg hlast, ih]
      have hmore : (if max = 0 then (e :: elts).length else max - n + 1) =
          (if max = 0 then elts.length else max - (n + 1) + 1) + 1 := by
        split
        · rfl
        · omega
      rw [hmore, List.take_succ_cons, total_cons]
      omega

/-- Extras that the sizing pass adds: with a limit, one more than still fit. -/
def sizedExtras (max l m : ℕ) : ℕ := if max = 0 then m else min m (max - limit max l + 1)

theorem pairsSize_eq (list : HeaderList) (extras : Option (List Elt)) (max : ℕ) :
    pairsSize list extras max =
      4 + total (list.live.take (limit max list.live.length)) +
        total ((extras.getD []).take
          (sizedExtras max list.live.length (extras.getD []).length)) := by
  have hst := walkPart_size max list.parts.flatten 4 0 (by omega)
  rw [Nat.sub_zero, Nat.zero_add] at hst
  simp only [pairsSize, walk_flatten]
  rw [hst]
  cases extras with
  | none => simp [list.live_eq]
  | some elts =>
    simp only [sizeExtras_eq, Option.getD_some, sizedExtras, list.live_eq]
    split
    · rfl
    · rw [Nat.min_comm, ← List.take_eq_take_min]

section Put

variable (emit : Elt → Bytes) (count : ℕ)

theorem putExtras_eq (elts : List Elt) (buf : Bytes) (n : ℕ) :
    putExtras emit count elts (buf, n) =
      (buf ++ (elts.take (count - n)).flatMap emit, n + min elts.length (count - n)) := by
  induction elts generalizing buf n with
  | nil => simp [putExtras]
  | cons e elts ih =>
    rw [putExtras]
    by_cases h : n < count
    · have hsub : count - n = (count - (n + 1)) + 1 := by omega
      rw [if_pos h, ih, hsub, List.take_succ_cons, List.flatMap_cons, List.append_assoc]
      simp only [List.length_cons, Prod.mk.injEq, true_and]
      omega
    · have hsub : count - n = 0 := by omega
      rw [if_neg h, hsub]
      simp

theorem walkPart_put (elts : List Elt) (buf : Bytes) (n : ℕ) :
    (walkPart (fun (st : Bytes × ℕ) => decide (st.2 < count))
      (fun st e => ((st.1 ++ emit e, st.2 + 1), false)) elts (buf, n)).1.1 =
      buf ++ ((liveOf elts).take (count - n)).flatMap emit := by
  induction elts generalizing buf n with
  | nil => simp [walkPart]
  | cons e elts ih =>
    by_cases h : n < count
    · by_cases hh : e.hash = 0
      · simp only [walkPart, h, hh, liveOf_cons_dead hh, decide_true, beq_self_eq_true, ↓reduceIte]
        exact ih buf n
      · have hsub : count - n = (count - (n + 1)) + 1 := by omega
        simp only [walkPart, h, beq_iff_eq, hh, decide_true, ↓reduceIte, ih]
        rw [liveOf_cons_live hh, hsub, List.take_succ_cons, List.flatMap_cons, List.append_assoc]
    · have hsub : count - n = 0 := by omega
      simp [walkPart, h, hsub]

/-- A writing pass takes the first `count` pairs, extras before list pairs. -/
theorem putPass_eq (list : HeaderList) (extras : Option (List Elt)) (buf : Bytes) :
    putPass emit list extras count buf =
      buf ++ ((extras.getD [] ++ list.live).take count).flatMap emit := by
  cases extras with
  | none => simp only [putPass, walk_flatten, walkPart_put, list.live_eq, Option.getD_none,
      List.nil_append, Nat.sub_zero]
  | some elts =>
    simp only [putPass, walk_flatten, putExtras_eq, walkPart_put, Option.getD_some, Nat.sub_zero,
      Nat.zero_add]
    rw [list.live_eq, List.append_assoc, ← List.flatMap_append, List.take_append]
    have hrest : count - min elts.length count = count - elts.length := by omega
    rw [hrest]

end Put

/-- The number of pairs that `marshal` announces and writes. -/
def written (list : HeaderList) (extras : Option (List Elt)) (max : ℕ) : ℕ :=
  limit max (((extras.getD []).length + list.live.length) % 2 ^ 32)

theorem marshalCount_eq (list : HeaderList) (extras : Option (List Elt)) (max : ℕ) :
    marshalCount list extras max = (written list extras max,
      if max ≠ 0 ∧ max < ((extras.getD []).length + list.live.length) % 2 ^ 32 then some max
      else none) := by
  have hcap : ∀ count : ℕ, (if max ≠ 0 ∧ max < count then (max, some max) else (count, none)) =
      (limit max count, if max ≠ 0 ∧ max < count then some max else none) := by
    intro count
    unfold limit
    split
    · next h => rw [if_neg h.1, Nat.min_eq_right h.2.le]
    · next h =>
      congr 1
      split <;> omega
  simp only [marshalCount, pairsCount_eq, hcap, written]
  cases extras with
  | none => simp
  | some elts =>
    have hsum : (list.live.length % 2 ^ 32 + elts.length) % 2 ^ 32 =
        (elts.length + list.live.length) % 2 ^ 32 := by omega
    simp only [Option.getD_some, hsum]

theorem pairsMarshal_eq (list : HeaderList) (extras : Option (List Elt)) (max : ℕ) :
    (pairsMarshal list extras max).1 =
      u32Bytes (written list extras max) ++
        ((extras.getD [] ++ list.live).take (written list extras max)).flatMap emitLengths ++
        ((extras.getD [] ++ list.live).take (written list extras max)).flatMap emitStrings := by
  simp only [pairsMarshal, marshalCount_eq, putPass_eq]

theorem length_flatMap_emits (elts : List Elt) :
    (elts.flatMap emitLengths).length + (elts.flatMap emitStrings).length = total elts := by
  induction elts with
  | nil => rfl
  | cons e elts ih =>
    simp only [List.flatMap_cons, List.length_append, total_cons, emitLengths, emitStrings,
      u32Bytes_length, List.length_singleton, pairSize]
    omega

theorem pairsMarshal_length (list : HeaderList) (extras : Option (List Elt)) (max : ℕ) :
    (pairsMarshal list extras max).1.length =
      4 + total ((extras.getD [] ++ list.live).take (written list extras max)) := by
  rw [pairsMarshal_eq, List.length_append, List.length_append, u32Bytes_length, Nat.add_assoc,
    length_flatMap_emits]

/-- The bytes of the pairs that only the sizing pass counts are those of the pairs
that only the writing pass writes. -/
def Levels (list : HeaderList) (extras : Option (List Elt)) (max : ℕ) : Prop :=
  let xs := extras.getD []
  let sized := sizedExtras max list.live.length xs.length
  let count := written list extras max
  total ((list.live.take (limit max list.live.length)).drop (count - xs.length)) +
    total ((xs.take sized).drop count) = total ((xs.take count).drop sized)

/-- No limit cuts between extras and list pairs and the number of pairs is a
`uint32_t`; or a limit does, and the lengths of the pairs happen to level it. -/
def Fits (list : HeaderList) (extras : Option (List Elt)) (max : ℕ) : Prop :=
  let xs := extras.getD []
  let pairs := xs.length + list.live.length
  (pairs < 2 ^ 32 ∧ (max = 0 ∨ xs = [] ∨ pairs ≤ max)) ∨
    (max ≠ 0 ∧ max < pairs ∧ Levels list extras max)

theorem total_take (xs : List Elt) (m n : ℕ) :
    total (xs.take m) = total (xs.take (min m n)) + total ((xs.take m).drop n) := by
  rw [← total_take_add_drop (xs.take m) n, List.take_take, Nat.min_comm]

theorem written_le (list : HeaderList) (extras : Option (List Elt)) (max : ℕ) :
    written list extras max - (extras.getD []).length ≤ limit max list.live.length := by
  simp only [written, limit]
  split <;> omega

theorem length_eq_size_iff_levels (list : HeaderList) (extras : Option (List Elt)) (max : ℕ) :
    (pairsMarshal list extras max).1.length = pairsSize list extras max ↔
      Levels list extras max := by
  rw [pairsMarshal_length, pairsSize_eq, List.take_append, total_append, Levels]
  have hlist := total_take list.live (limit max list.live.length)
    (written list extras max - (extras.getD []).length)
  rw [Nat.min_eq_right (written_le list extras max)] at hlist
  have hsized := total_take (extras.getD [])
    (sizedExtras max list.live.length (extras.getD []).length) (written list extras max)
  have hput := total_take (extras.getD []) (written list extras max)
    (sizedExtras max list.live.length (extras.getD []).length)
  rw [Nat.min_comm] at hput
  omega

theorem total_drop_of_le {xs : List Elt} {n : ℕ} (h : xs.length ≤ n) : total (xs.drop n) = 0 := by
  rw [List.drop_eq_nil_of_le h, total_nil]

theorem length_le_of_total_drop {xs : List Elt} {n : ℕ} (h : total (xs.drop n) = 0) :
    xs.length ≤ n :=
  List.drop_eq_nil_iff.mp (total_eq_zero h)

/-- Where the sizing pass counts everything, the writing pass has to write everything. -/
theorem Levels.all_pairs {list : HeaderList} {extras : Option (List Elt)} {max : ℕ}
    (h : Levels list extras max)
    (hmax : max = 0 ∨ (extras.getD []).length + list.live.length ≤ max) :
    (extras.getD []).length + list.live.length < 2 ^ 32 := by
  have hlimit : limit max list.live.length = list.live.length := by
    unfold limit
    split <;> omega
  have hsized : sizedExtras max list.live.length (extras.getD []).length =
      (extras.getD []).length := by
    unfold sizedExtras
    split
    · rfl
    · rw [hlimit]
      omega
  simp only [Levels, hlimit, hsized, List.take_length] at h
  have hzero : total ((List.take (written list extras max) (extras.getD [])).drop
      (extras.getD []).length) = 0 := by
    apply total_drop_of_le
    simp
  have hlist := length_le_of_total_drop (Nat.eq_zero_of_add_eq_zero_right (h.trans hzero))
  have hextras := length_le_of_total_drop (Nat.eq_zero_of_add_eq_zero_left (h.trans hzero))
  have hcount : written list extras max ≤
      ((extras.getD []).length + list.live.length) % 2 ^ 32 := by
    simp only [written, limit]
    split <;> omega
  omega

theorem Levels.of_unlimited {list : HeaderList} {extras : Option (List Elt)} {max : ℕ}
    (hpairs : (extras.getD []).length + list.live.length < 2 ^ 32)
    (h : max = 0 ∨ extras.getD [] = [] ∨ (extras.getD []).length + list.live.length ≤ max) :
    Levels list extras max := by
  have hmod := Nat.mod_eq_of_lt hpairs
  rw [← List.length_eq_zero_iff] at h
  simp only [Levels]
  rw [total_drop_of_le, total_drop_of_le, total_drop_of_le]
  all_goals
    simp only [List.length_take, written, hmod, sizedExtras, limit]
    split <;> omega

theorem levels_iff_fits (list : HeaderList) (extras : Option (List Elt)) (max : ℕ) :
    Levels list extras max ↔ Fits list extras max := by
  constructor
  · intro h
    by_cases hmax : max = 0 ∨ (extras.getD []).length + list.live.length ≤ max
    · exact .inl ⟨h.all_pairs hmax, by omega⟩
    · exact .inr ⟨by omega, by omega, h⟩
  · intro h
    rcases h with ⟨hpairs, h⟩ | ⟨_, _, h⟩
    · exact .of_unlimited hpairs h
    · exact h

theorem store_outside (memory : ℕ → UInt8) (p : ℕ) (bytes : Bytes) {a : ℕ}
    (h : a < p ∨ p + bytes.length ≤ a) : store memory p bytes a = memory a := by
  unfold store
  split
  · have hnone : bytes[a - p]? = none := by
      apply List.getElem?_eq_none
      omega
    rw [hnone, Option.getD_none]
  · rfl

theorem store_inside (memory : ℕ → UInt8) (p : ℕ) (bytes : Bytes) {k : ℕ} (h : k < bytes.length) :
    bytes[k]? = some (store memory p bytes (p + k)) := by
  simp [store, h]

theorem marshal_some {g : Guest} {memory : ℕ → UInt8} {list : HeaderList}
    {shims : Option (List Elt)} {max : ℕ} {r : Marshalled}
    (h : marshal g memory list shims max = some r) :
    r.memory = store memory r.out (pairsMarshal list shims max).1 := by
  simp only [marshal] at h
  split at h
  · cases h
  · split at h
    · cases h
    · cases h
      rfl

/-- The writing pass fills the allocated block exactly when `Fits`; then nothing
outside the block changes and every byte of it is set. -/
theorem marshal_fills_block (list : HeaderList) (extras : Option (List Elt)) (max : ℕ) :
    ((pairsMarshal list extras max).1.length = pairsSize list extras max ↔
      Fits list extras max) ∧
    (Fits list extras max → ∀ g memory r, marshal g memory list extras max = some r →
      (∀ a, a < r.out ∨ r.out + pairsSize list extras max ≤ a → r.memory a = memory a) ∧
      ∀ k, k < pairsSize list extras max →
        (pairsMarshal list extras max).1[k]? = some (r.memory (r.out + k))) := by
  have hiff := (length_eq_size_iff_levels list extras max).trans (levels_iff_fits list extras max)
  constructor
  · exact hiff
  · intro hfits g memory r hr
    rw [marshal_some hr, ← hiff.mpr hfits]
    constructor
    · intro a ha
      exact store_outside memory r.out _ ha
    · intro k hk
      exact store_inside memory r.out _ hk

def shim (len : ℕ) : Elt := { hash := 1, key := [58], value := List.replicate len 47 }

def twoHeaders : HeaderList where
  part := [shim 1, shim 2]
  next := []
  pushed := pushed_nil

/-- With two headers, two extras and a limit of two, the sized pairs are the
headers and the first extra, the written ones are the extras: a long second
extra runs past the block, a short one leaves bytes unset. -/
theorem marshal_misfits :
    pairsSize twoHeaders (some [shim 1, shim 40]) 2 = 41 ∧
    (pairsMarshal twoHeaders (some [shim 1, shim 40]) 2).1.length = 67 ∧
    pairsSize twoHeaders (some [shim 1, shim 1]) 2 = 41 ∧
    (pairsMarshal twoHeaders (some [shim 1, shim 1]) 2).1.length = 28 := by
  decide

end NgxWasm.ProxyWasm.Pairs
