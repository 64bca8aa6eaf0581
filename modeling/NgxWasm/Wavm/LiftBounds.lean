import NgxWasm.Wavm.Memory

/-!
# What the bound check of the lifts guarantees

The check adds pointer and length as `uint32_t`; the host goes on with a
`size_t`. The two agree for lengths below 2^32.
-/

namespace NgxWasm.Wavm

open NgxWasm

/-- `[p, p + n)` lies inside the guest memory. -/
def InBounds (mem : Memory) (p : BitVec 32) (n : ℕ) : Prop := p.toNat + n ≤ mem.size

/-- What the check asks of a pointer and a 32-bit length. -/
def Within (mem : Memory) (p : BitVec 32) (n : ℕ) : Prop :=
  if p = 0 then n = 0 else p.toNat + n < 2 ^ 32 ∧ p.toNat + n ≤ mem.size

instance (mem : Memory) (p : BitVec 32) (n : ℕ) : Decidable (Within mem p n) := by
  unfold Within
  infer_instance

/-- No wrap-around of a 32-bit sum. -/
theorem add_lt_self_iff (p size : BitVec 32) :
    p + size < p ↔ 2 ^ 32 ≤ p.toNat + size.toNat := by
  rw [BitVec.lt_def, BitVec.toNat_add]
  have hp := p.isLt
  have hs := size.isLt
  omega

theorem lift_ne_bad_iff (mem : Memory) (p size : BitVec 32) :
    memoryLift mem p size 1 ≠ .bad ↔ Within mem p size.toNat := by
  unfold memoryLift Within
  split
  · by_cases hs : size = 0#32
    · simp [hs]
    · have hs' : size.toNat ≠ 0 := fun h => hs (BitVec.eq_of_toNat_eq h)
      simp [hs, hs']
  · have hwrap := add_lt_self_iff p size
    by_cases hlarge : 2 ^ 32 ≤ p.toNat + size.toNat
    · rw [if_pos (Or.inl (hwrap.mpr hlarge))]
      simp only [ne_eq, not_true_eq_false, false_iff]
      omega
    · have hsum : (p + size).toNat = p.toNat + size.toNat := by
        rw [BitVec.toNat_add]
        omega
      rw [hsum]
      split
      · rename_i hbad
        have hout := hbad.resolve_left fun h => hlarge (hwrap.mp h)
        simp only [ne_eq, not_true_eq_false, false_iff]
        omega
      · rename_i hgood
        have hin : ¬ mem.size < p.toNat + size.toNat := fun h => hgood (.inr h)
        have halign : ¬ (1 < (1 : BitVec 32) ∧ p &&& (1 - 1) ≠ 0) := by simp
        rw [if_neg halign]
        simp only [ne_eq, reduceCtorEq, not_false_eq_true, true_iff]
        omega

theorem lifted_slice_iff (mem : Memory) (p : BitVec 32) (len : Length) :
    (hostLiftSlice mem p len).isSome ↔ Within mem p (len.used.toNat % 2 ^ 32) := by
  have h := lift_ne_bad_iff mem p (len.used.setWidth 32)
  rw [BitVec.toNat_setWidth] at h
  rw [← h, hostLiftSlice]
  cases memoryLift mem p (len.used.setWidth 32) 1 <;> simp

theorem lifted_slice_len {mem : Memory} {p : BitVec 32} {len : Length} {s : Slice}
    (h : hostLiftSlice mem p len = some s) : s.len = len.used := by
  unfold hostLiftSlice at h
  split at h
  · simp at h
  · exact (Option.some.inj h) ▸ rfl
  · exact (Option.some.inj h) ▸ rfl

theorem copied_iff (mem : Memory) (p : BitVec 32) (buf : Bytes) :
    (memoryMemcpy mem p buf).isSome ↔ Within mem p (buf.length % 2 ^ 32) := by
  have h := lift_ne_bad_iff mem p (BitVec.ofNat 32 buf.length)
  rw [BitVec.toNat_ofNat] at h
  rw [← h, memoryMemcpy]
  cases memoryLift mem p (BitVec.ofNat 32 buf.length) 1 <;> simp

/-- The check on the low 32 bits speaks for the whole length: the length has no
other bits, or the low ones fail already, or the range is a whole memory of 2^32
bytes. -/
def Faithful (mem : Memory) (p : BitVec 32) (n : ℕ) : Prop :=
  n < 2 ^ 32 ∨ ¬ Within mem p (n % 2 ^ 32) ∨ p = 0 ∧ n = 2 ^ 32 ∧ mem.size = 2 ^ 32

theorem inBounds_iff_faithful (mem : Memory) (p : BitVec 32) (n : ℕ) :
    (Within mem p (n % 2 ^ 32) → InBounds mem p n) ↔ Faithful mem p n := by
  have hsize := mem.bounded
  constructor
  · intro h
    by_cases hn : n < 2 ^ 32
    · exact .inl hn
    · by_cases hfits : Within mem p (n % 2 ^ 32)
      · have hin : p.toNat + n ≤ mem.size := h hfits
        have hzero : p.toNat = 0 := by omega
        have hp : p = 0 := BitVec.eq_of_toNat_eq hzero
        exact .inr (.inr ⟨hp, by omega, by omega⟩)
      · exact .inr (.inl hfits)
  · rintro (hn | hfits | ⟨hp, hn, hs⟩) h
    · rw [Nat.mod_eq_of_lt hn] at h
      unfold Within at h
      unfold InBounds
      split at h
      · rename_i hp
        simp [hp, h]
      · exact h.2
    · exact absurd h hfits
    · simp [InBounds, hp, hn, hs]

/-- A slice that was lifted, and a copy that was made, lies inside the guest
memory exactly where the 32-bit check speaks for the whole length. -/
theorem lifted_in_bounds_iff (mem : Memory) (p : BitVec 32) :
    (∀ len : Length,
      (∀ s, hostLiftSlice mem p len = some s → InBounds mem p s.len.toNat) ↔
        Faithful mem p len.used.toNat) ∧
    (∀ buf : Bytes,
      ((memoryMemcpy mem p buf).isSome → InBounds mem p buf.length) ↔
        Faithful mem p buf.length) := by
  constructor
  · intro len
    rw [← inBounds_iff_faithful, ← lifted_slice_iff]
    constructor
    · intro h hsome
      obtain ⟨s, hs⟩ := Option.isSome_iff_exists.mp hsome
      rw [← lifted_slice_len hs]
      exact h s hs
    · intro h s hs
      rw [lifted_slice_len hs]
      exact h (Option.isSome_of_eq_some hs)
  · intro buf
    rw [copied_iff]
    exact inBounds_iff_faithful mem p buf.length

/-- A key of 2^31 bytes passes in a memory that holds it and is used as one of
2^64 - 2^31; a copy of 2^32 + 1 bytes passes wherever one byte fits. -/
theorem large_length_out_of_bounds :
    ∃ mem : Memory, ∃ p : BitVec 32,
      (∃ s, hostLiftSlice mem p (.arg 0x80000000) = some s ∧ ¬ InBounds mem p s.len.toNat) ∧
      (memoryMemcpy mem p (List.replicate (2 ^ 32 + 1) 0)).isSome ∧
      ¬ InBounds mem p (2 ^ 32 + 1) := by
  refine ⟨⟨0, 2 ^ 31 + 65536, by decide, fun _ _ => 0⟩, 1, ⟨_, rfl, ?_⟩, ?_, ?_⟩
  · simp [InBounds, Length.used]
  · rw [copied_iff, List.length_replicate]
    decide
  · simp [InBounds]

end NgxWasm.Wavm
