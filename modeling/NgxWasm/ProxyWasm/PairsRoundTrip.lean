import NgxWasm.ProxyWasm.PairsSize
import Mathlib.Data.List.Basic
import Mathlib.Tactic.Common

/-!
# Unmarshalling what was marshalled

The count and the table of lengths tell where each string ends, so the strings
may hold NUL bytes. The count is a `uint32_t`: from `2 ^ 32` pairs on it wraps.
-/

namespace NgxWasm.ProxyWasm.Pairs

open NgxWasm

/-- A pair as `unmarshal` builds it: `hash` is 0. -/
def plain (e : Elt) : Elt := { e with hash := 0 }

/-- The lengths of a pair's key and value fit the table of lengths. -/
def Short (e : Elt) : Prop := e.key.length < 2 ^ 32 ∧ e.value.length < 2 ^ 32

theorem bind_ok {β γ : Type} (a : β) (f : β → Except Failure γ) :
    ((.ok a : Except Failure β) >>= f) = f a := rfl

theorem readU32_u32Bytes {n : ℕ} (h : n < 2 ^ 32) (rest : Bytes) :
    readU32 (u32Bytes n ++ rest) = .ok (n, rest) := by
  have hval := u32Val_u32Bytes n h
  simp only [u32Bytes] at hval
  simp only [u32Bytes, List.cons_append, List.nil_append, readU32, hval]

theorem readLengths_emitLengths (elts : List Elt) (h : ∀ e ∈ elts, Short e) (rest : Bytes) :
    readLengths elts.length (elts.flatMap emitLengths ++ rest) =
      .ok (elts.map fun e => (e.key.length, e.value.length), rest) := by
  induction elts with
  | nil => rfl
  | cons e elts ih =>
    obtain ⟨hkey, hvalue⟩ := h e List.mem_cons_self
    have ih := ih fun x hx => h x (List.mem_cons_of_mem e hx)
    simp only [List.length_cons, readLengths, List.flatMap_cons, emitLengths, List.append_assoc,
      readU32_u32Bytes hkey, readU32_u32Bytes hvalue, bind_ok]
    rw [ih, bind_ok]
    rfl

theorem readString_append (s : Bytes) (z : UInt8) (rest : Bytes) :
    readString true s.length (s ++ z :: rest) = .ok (s, rest) := by
  have hlen : ¬ (s ++ z :: rest).length < s.length + 1 := by
    simp only [List.length_append, List.length_cons]
    omega
  have hdrop : (s ++ z :: rest).drop (s.length + 1) = rest := by
    rw [← List.drop_drop, List.drop_left]
    rfl
  simp only [readString, Bool.not_true, Bool.false_eq_true, hlen, ↓reduceIte, hdrop,
    List.take_left]

theorem readStrings_emitStrings {pool : ℕ → Bool} (hpool : ∀ k, pool k = true) (elts : List Elt)
    (k : ℕ) (rest : Bytes) :
    readStrings pool k (elts.map fun e => (e.key.length, e.value.length))
      (elts.flatMap emitStrings ++ rest) = .ok (elts.map plain) := by
  induction elts generalizing k with
  | nil => rfl
  | cons e elts ih =>
    simp only [List.map_cons, readStrings, List.flatMap_cons, emitStrings, List.append_assoc,
      List.cons_append, List.nil_append, hpool, readString_append, bind_ok]
    rw [ih, bind_ok]
    rfl

/-- Decoding the format, whatever follows it. -/
theorem unmarshal_format {pool : ℕ → Bool} (hpool : ∀ k, pool k = true) (elts : List Elt)
    (hcount : elts.length < 2 ^ 32) (h : ∀ e ∈ elts, Short e) (rest : Bytes) :
    pairsUnmarshal pool (u32Bytes elts.length ++ elts.flatMap emitLengths ++
      elts.flatMap emitStrings ++ rest) = .ok (elts.map plain) := by
  have hlen : ¬ (u32Bytes elts.length ++ elts.flatMap emitLengths ++
      elts.flatMap emitStrings ++ rest).length = 0 := by
    simp [u32Bytes]
  rw [pairsUnmarshal, if_neg hlen]
  simp only [List.append_assoc, readU32_u32Bytes hcount, bind_ok, hpool, Bool.not_true,
    Bool.false_eq_true, ↓reduceIte, readLengths_emitLengths elts h]
  exact readStrings_emitStrings hpool elts 1 rest

theorem take_limit (max : ℕ) (elts : List Elt) :
    (elts.take (limit max elts.length)).length = limit max elts.length := by
  rw [List.length_take]
  unfold limit
  split <;> omega

/-- Below `2 ^ 32` pairs the decoder gives back the extras followed by the live
pairs of the list, cut at `max`, and truncation is reported when pairs were cut. -/
theorem unmarshal_marshal (pool : ℕ → Bool) (hpool : ∀ k, pool k = true) (list : HeaderList)
    (extras : Option (List Elt)) (max : ℕ)
    (hcount : (extras.getD [] ++ list.live).length < 2 ^ 32)
    (hshort : ∀ e ∈ extras.getD [] ++ list.live, Short e) :
    pairsUnmarshal pool (pairsMarshal list extras max).1 =
      .ok (((extras.getD [] ++ list.live).take
        (if max = 0 then (extras.getD [] ++ list.live).length else max)).map plain) ∧
    (pairsMarshal list extras max).2 =
      if max ≠ 0 ∧ max < (extras.getD [] ++ list.live).length then some max else none := by
  have hmod := Nat.mod_eq_of_lt hcount
  rw [List.length_append] at hmod
  have hwritten : written list extras max = limit max (extras.getD [] ++ list.live).length := by
    rw [written, hmod, List.length_append]
  constructor
  · have hcut : (extras.getD [] ++ list.live).take
        (if max = 0 then (extras.getD [] ++ list.live).length else max) =
        (extras.getD [] ++ list.live).take (written list extras max) := by
      rw [hwritten, limit]
      split
      · rfl
      · rw [Nat.min_comm, ← List.take_eq_take_min]
    have hlen := take_limit max (extras.getD [] ++ list.live)
    rw [← hwritten] at hlen
    have hformat := unmarshal_format hpool
      ((extras.getD [] ++ list.live).take (written list extras max))
      (by rw [List.length_take]; omega)
      (fun e he => hshort e (List.mem_of_mem_take he)) []
    rw [hlen, List.append_nil] at hformat
    rw [pairsMarshal_eq, hcut]
    exact hformat
  · simp only [pairsMarshal, marshalCount_eq, hmod, List.length_append]

def nulPair : Elt := { hash := 1, key := [0, 120], value := [] }

theorem unmarshal_marshal_two :
    pairsUnmarshal (fun _ => true) (pairsMarshal twoHeaders (some [nulPair]) 2).1 =
      .ok (([nulPair, shim 1, shim 2].take 2).map plain) ∧
    (pairsMarshal twoHeaders (some [nulPair]) 2).2 = some 2 :=
  unmarshal_marshal (fun _ => true) (fun _ => rfl) twoHeaders (some [nulPair]) 2
    (by decide) (by unfold Short; decide)

def copies (n : ℕ) : HeaderList where
  part := List.replicate n nulPair
  next := []
  pushed := pushed_nil

theorem copies_live (n : ℕ) : (copies n).live = List.replicate n nulPair := by
  simp [HeaderList.live, HeaderList.parts, copies, nulPair]

theorem copies_short (n : ℕ) : ∀ e ∈ (copies n).live, Short e := by
  intro e he
  rw [copies_live] at he
  rw [List.eq_of_mem_replicate he]
  unfold Short
  decide

theorem unmarshal_copies {n : ℕ} (h : n % 2 ^ 32 = 0) :
    pairsUnmarshal (fun _ => true) (pairsMarshal (copies n) none 0).1 = .ok [] := by
  have hwritten : written (copies n) none 0 = 0 := by
    simp only [written, limit, Option.getD_none, List.length_nil, copies_live,
      List.length_replicate, Nat.zero_add, h, ↓reduceIte]
  rw [pairsMarshal_eq, hwritten, List.take_zero]
  rfl

/-- The count wraps: all keys and values are short and no limit is set, but of
`2 ^ 32` pairs nothing is written and nothing is read back. -/
theorem unmarshal_marshal_wraps :
    (copies (2 ^ 32)).live.length = 2 ^ 32 ∧ (∀ e ∈ (copies (2 ^ 32)).live, Short e) ∧
    pairsUnmarshal (fun _ => true) (pairsMarshal (copies (2 ^ 32)) none 0).1 = .ok [] := by
  refine ⟨?_, copies_short _, unmarshal_copies (Nat.mod_self _)⟩
  rw [copies_live, List.length_replicate]

end NgxWasm.ProxyWasm.Pairs
