import NgxWasm.ProxyWasm.PairsRoundTrip
import Mathlib.Data.List.Range

/-!
# What unmarshalling reads (ngx_proxy_wasm_util.c 464-534)

`ngx_proxy_wasm_pairs_unmarshal` over the memory at `map->data`. The count and the lengths come
from the guest and are not compared with `map->len`, and the byte behind a string is copied
whatever it is.
-/

namespace NgxWasm.ProxyWasm.Pairs

open NgxWasm

/-- The `n` bytes from `off` on. -/
def slice (mem : ℕ → UInt8) (off n : ℕ) : Bytes := (List.range' off n).map mem

def u32At (mem : ℕ → UInt8) (off : ℕ) : ℕ := u32Val (slice mem off 4)

/-- An offset from `map->data` and how many bytes are read there. -/
abbrev Read := ℕ × ℕ

/-- The first loop, `buf` being its offset. -/
def lengthsAt (mem : ℕ → UInt8) : ℕ → ℕ → List (ℕ × ℕ) × List Read
  | 0, _ => ([], [])
  | n + 1, buf =>
    let r := lengthsAt mem n (buf + 8)
    ((u32At mem buf, u32At mem (buf + 4)) :: r.1, (buf, 4) :: (buf + 4, 4) :: r.2)

/-- The second loop; `pool k` answers allocation `k`, and `none` is `goto failed`. -/
def stringsAt (pool : ℕ → Bool) (mem : ℕ → UInt8) :
    ℕ → List (ℕ × ℕ) → ℕ → Option (List Elt) × List Read
  | _, [], _ => (some [], [])
  | k, (key, value) :: lens, buf =>
    if pool k then
      let mid := buf + (key + 1)
      if pool (k + 1) then
        let elt : Elt := { hash := 0, key := slice mem buf key, value := slice mem mid value }
        let r := stringsAt pool mem (k + 2) lens (mid + (value + 1))
        (r.1.map (elt :: ·), (buf, key + 1) :: (mid, value + 1) :: r.2)
      else (none, [(buf, key + 1)])
    else (none, [])

/-- The pairs, or `none` for `NGX_ERROR`, and what was read. -/
def unmarshalAt (pool : ℕ → Bool) (mem : ℕ → UInt8) (len : ℕ) : Option (List Elt) × List Read :=
  let count := if len = 0 then 0 else u32At mem 0
  let buf := if len = 0 then 0 else 4
  let head : List Read := if len = 0 then [] else [(0, 4)]
  if pool 0 then
    let lens := lengthsAt mem count buf
    let strings := stringsAt pool mem 1 lens.1 (buf + 8 * count)
    (strings.1, head ++ lens.2 ++ strings.2)
  else (none, head)

/-! ### Bytes of the map -/

theorem slice_length (mem : ℕ → UInt8) (off n : ℕ) : (slice mem off n).length = n := by
  simp [slice]

theorem slice_add (mem : ℕ → UInt8) (off m n : ℕ) :
    slice mem off (m + n) = slice mem off m ++ slice mem (off + m) n := by
  simp only [slice, ← List.map_append, List.range'_append_1]

/-- The memory holds `bytes` at `off`. -/
def Holds (mem : ℕ → UInt8) (off : ℕ) (bytes : Bytes) : Prop := slice mem off bytes.length = bytes

theorem holds_append (mem : ℕ → UInt8) (off : ℕ) (a b : Bytes) :
    Holds mem off (a ++ b) ↔ Holds mem off a ∧ Holds mem (off + a.length) b := by
  simp only [Holds, List.length_append, slice_add]
  constructor
  · intro h
    exact List.append_inj h (slice_length mem off a.length)
  · intro h
    rw [h.1, h.2]

theorem holds_slice (mem : ℕ → UInt8) (off n : ℕ) : Holds mem off (slice mem off n) := by
  rw [Holds, slice_length]

theorem prefix_slice_iff (mem : ℕ → UInt8) (len : ℕ) (bytes : Bytes) :
    bytes <+: slice mem 0 len ↔ bytes.length ≤ len ∧ Holds mem 0 bytes := by
  constructor
  · intro h
    have hle := h.length_le
    rw [slice_length] at hle
    obtain ⟨n, rfl⟩ := Nat.exists_eq_add_of_le hle
    rw [slice_add] at h
    refine ⟨hle, ?_⟩
    obtain ⟨rest, hrest⟩ := h
    exact (List.append_inj hrest (slice_length mem 0 bytes.length).symm).1.symm
  · intro h
    obtain ⟨n, rfl⟩ := Nat.exists_eq_add_of_le h.1
    rw [slice_add, h.2]
    exact List.prefix_append _ _

theorem u32Bytes_u32At (mem : ℕ → UInt8) (off : ℕ) : u32Bytes (u32At mem off) = slice mem off 4 := by
  have hslice : slice mem off 4 = [mem off, mem (off + 1), mem (off + 2), mem (off + 3)] := rfl
  rw [u32At, hslice]
  have h0 := (mem off).toNat_lt
  have h1 := (mem (off + 1)).toNat_lt
  have h2 := (mem (off + 2)).toNat_lt
  have h3 := (mem (off + 3)).toNat_lt
  simp only [u32Bytes, u32Val, List.cons.injEq, and_true]
  refine ⟨?_, ?_, ?_, ?_⟩ <;>
    (apply UInt8.toNat_inj.mp; rw [UInt8.toNat_ofNat']; omega)

theorem u32At_lt (mem : ℕ → UInt8) (off : ℕ) : u32At mem off < 2 ^ 32 := by
  have hslice : slice mem off 4 = [mem off, mem (off + 1), mem (off + 2), mem (off + 3)] := rfl
  have h0 := (mem off).toNat_lt
  have h1 := (mem (off + 1)).toNat_lt
  have h2 := (mem (off + 2)).toNat_lt
  have h3 := (mem (off + 3)).toNat_lt
  simp only [u32At, hslice, u32Val]
  omega

theorem u32At_of_holds {mem : ℕ → UInt8} {off n : ℕ} (hn : n < 2 ^ 32)
    (h : Holds mem off (u32Bytes n)) : u32At mem off = n := by
  rw [u32At, ← u32Val_u32Bytes n hn, ← h, u32Bytes_length]

/-! ### The reads -/

/-- No byte at or behind `len` is read. -/
def ReadsWithin (len : ℕ) (reads : List Read) : Prop := ∀ r ∈ reads, r.1 + r.2 ≤ len

theorem within_cons (len : ℕ) (r : Read) (reads : List Read) :
    ReadsWithin len (r :: reads) ↔ r.1 + r.2 ≤ len ∧ ReadsWithin len reads := by
  simp [ReadsWithin]

theorem within_append (len : ℕ) (as bs : List Read) :
    ReadsWithin len (as ++ bs) ↔ ReadsWithin len as ∧ ReadsWithin len bs := by
  simp only [ReadsWithin, List.mem_append]
  constructor
  · intro h
    exact ⟨fun r hr => h r (Or.inl hr), fun r hr => h r (Or.inr hr)⟩
  · intro h r hr
    rcases hr with hr | hr
    · exact h.1 r hr
    · exact h.2 r hr

theorem lengthsAt_within (mem : ℕ → UInt8) (len n buf : ℕ) (hbuf : buf ≤ len) :
    ReadsWithin len (lengthsAt mem n buf).2 ↔ buf + 8 * n ≤ len := by
  induction n generalizing buf with
  | zero => simp [lengthsAt, ReadsWithin, hbuf]
  | succ n ih =>
    simp only [lengthsAt, within_cons]
    by_cases h : buf + 8 ≤ len
    · rw [ih (buf + 8) h]
      omega
    · constructor
      · intro hw
        omega
      · intro hle
        omega

theorem lengthsAt_length (mem : ℕ → UInt8) (n buf : ℕ) : (lengthsAt mem n buf).1.length = n := by
  induction n generalizing buf with
  | zero => rfl
  | succ n ih => simp only [lengthsAt, List.length_cons, ih]

/-- The lengths of the strings in the order in which they are copied. -/
def stringLengths (lens : List (ℕ × ℕ)) : List ℕ := lens.flatMap fun p => [p.1, p.2]

/-- Those that are copied before an allocation is refused. -/
def granted (pool : ℕ → Bool) : ℕ → List ℕ → List ℕ
  | _, [] => []
  | k, l :: ls => if pool k then l :: granted pool (k + 1) ls else []

/-- The size of strings with these lengths and a terminator each. -/
def stringsSize (ls : List ℕ) : ℕ := (ls.map (· + 1)).sum

theorem stringLengths_cons (key value : ℕ) (lens : List (ℕ × ℕ)) :
    stringLengths ((key, value) :: lens) = key :: value :: stringLengths lens := rfl

theorem stringsSize_cons (l : ℕ) (ls : List ℕ) : stringsSize (l :: ls) = l + 1 + stringsSize ls := rfl

theorem stringsAt_within (pool : ℕ → Bool) (mem : ℕ → UInt8) (len : ℕ) (lens : List (ℕ × ℕ)) :
    ∀ (k buf : ℕ), buf ≤ len →
      (ReadsWithin len (stringsAt pool mem k lens buf).2 ↔
        buf + stringsSize (granted pool k (stringLengths lens)) ≤ len) := by
  induction lens with
  | nil =>
    intro k buf hbuf
    simp [stringsAt, ReadsWithin, stringLengths, granted, stringsSize, hbuf]
  | cons p lens ih =>
    obtain ⟨key, value⟩ := p
    intro k buf hbuf
    rw [stringLengths_cons, stringsAt, granted]
    by_cases hkey : pool k = true
    · rw [if_pos hkey, if_pos hkey, stringsSize_cons, granted]
      by_cases hvalue : pool (k + 1) = true
      · rw [if_pos hvalue, if_pos hvalue, stringsSize_cons]
        simp only [within_cons]
        by_cases hend : buf + (key + 1) + (value + 1) ≤ len
        · rw [ih (k + 2) _ hend, show k + 1 + 1 = k + 2 from rfl]
          omega
        · constructor
          · intro h
            omega
          · intro h
            omega
      · rw [if_neg hvalue, if_neg hvalue]
        simp only [within_cons, stringsSize, List.map_nil, List.sum_nil]
        constructor
        · intro h
          omega
        · intro h
          exact ⟨by omega, fun r hr => absurd hr List.not_mem_nil⟩
    · rw [if_neg hkey, if_neg hkey]
      simp [ReadsWithin, stringsSize, hbuf]

/-- Nothing is refused. -/
theorem granted_all (pool : ℕ → Bool) (ls : List ℕ) :
    ∀ k, (granted pool k ls).length = ls.length → granted pool k ls = ls := by
  induction ls with
  | nil => intro k _; rfl
  | cons l ls ih =>
    intro k h
    rw [granted] at h ⊢
    split at h
    · rename_i hk
      simp only [List.length_cons, Nat.add_right_cancel_iff] at h
      rw [if_pos hk, ih (k + 1) h]
    · exact absurd h (by simp)

theorem stringsAt_isSome (pool : ℕ → Bool) (mem : ℕ → UInt8) (lens : List (ℕ × ℕ)) :
    ∀ (k buf : ℕ), (stringsAt pool mem k lens buf).1.isSome = true ↔
      (granted pool k (stringLengths lens)).length = (stringLengths lens).length := by
  induction lens with
  | nil => intro k buf; simp [stringsAt, stringLengths, granted]
  | cons p lens ih =>
    obtain ⟨key, value⟩ := p
    intro k buf
    rw [stringLengths_cons, stringsAt, granted]
    by_cases hkey : pool k = true
    · rw [if_pos hkey, if_pos hkey, granted]
      by_cases hvalue : pool (k + 1) = true
      · rw [if_pos hvalue, if_pos hvalue]
        rw [show k + 1 + 1 = k + 2 from rfl]
        simp only [Option.isSome_map, ih, List.length_cons]
        omega
      · rw [if_neg hvalue, if_neg hvalue]
        simp
    · rw [if_neg hkey, if_neg hkey]
      simp

/-! ### Well-formed maps -/

/-- The count, the lengths of each pair and its strings, each with a NUL behind it. -/
def encoding (elts : List Elt) : Bytes :=
  u32Bytes elts.length ++ elts.flatMap emitLengths ++ elts.flatMap emitStrings

/-- The map begins with the encoding of some pairs; an empty map stands for none. -/
def WellFormed (map : Bytes) : Prop :=
  map = [] ∨ ∃ elts : List Elt, elts.length < 2 ^ 32 ∧ (∀ e ∈ elts, Short e) ∧
    encoding elts <+: map

/-- Each of the strings from `off` on ends in a NUL. -/
def Terminated (mem : ℕ → UInt8) : List ℕ → ℕ → Prop
  | [], _ => True
  | l :: ls, off => mem (off + l) = 0 ∧ Terminated mem ls (off + (l + 1))

def lengthsOf (elts : List Elt) : List (ℕ × ℕ) := elts.map fun e => (e.key.length, e.value.length)

theorem emitLengths_length (elts : List Elt) : (elts.flatMap emitLengths).length = 8 * elts.length := by
  induction elts with
  | nil => rfl
  | cons e elts ih =>
    simp only [List.flatMap_cons, List.length_append, List.length_cons, ih, emitLengths,
      u32Bytes_length]
    omega

theorem emitStrings_length (elts : List Elt) :
    (elts.flatMap emitStrings).length = stringsSize (stringLengths (lengthsOf elts)) := by
  induction elts with
  | nil => rfl
  | cons e elts ih =>
    rw [lengthsOf, List.map_cons, ← lengthsOf, stringLengths_cons, stringsSize_cons,
      stringsSize_cons, ← ih]
    simp only [List.flatMap_cons, List.length_append, emitStrings, List.length_cons,
      List.length_nil]
    omega

/-- A table of lengths holds those that are read from it. -/
theorem lengthsAt_holds {mem : ℕ → UInt8} (elts : List Elt) (hshort : ∀ e ∈ elts, Short e) :
    ∀ buf, Holds mem buf (elts.flatMap emitLengths) ↔
      (lengthsAt mem elts.length buf).1 = lengthsOf elts := by
  induction elts with
  | nil =>
    intro buf
    exact iff_of_true rfl rfl
  | cons e elts ih =>
    intro buf
    obtain ⟨hkey, hvalue⟩ := hshort e (List.mem_cons_self ..)
    have ih := ih (fun x hx => hshort x (List.mem_cons_of_mem _ hx)) (buf + 8)
    simp only [List.flatMap_cons, emitLengths, List.length_cons, lengthsAt, lengthsOf,
      List.map_cons, List.cons.injEq, Prod.mk.injEq]
    rw [holds_append, holds_append, List.length_append, u32Bytes_length, u32Bytes_length]
    simp only [lengthsOf] at ih
    rw [show 4 + 4 = 8 from rfl, ih]
    refine and_congr_left fun _ => and_congr ⟨u32At_of_holds hkey, ?_⟩ ⟨u32At_of_holds hvalue, ?_⟩
    · intro heq
      rw [← heq, u32Bytes_u32At]
      exact holds_slice mem _ _
    · intro heq
      rw [← heq, u32Bytes_u32At]
      exact holds_slice mem _ _

theorem holds_terminated {mem : ℕ → UInt8} (elts : List Elt) :
    ∀ off, Holds mem off (elts.flatMap emitStrings) →
      Terminated mem (stringLengths (lengthsOf elts)) off := by
  induction elts with
  | nil => intro off _; trivial
  | cons e elts ih =>
    intro off h
    rw [List.flatMap_cons, holds_append] at h
    obtain ⟨hpair, hrest⟩ := h
    simp only [emitStrings, List.append_assoc] at hpair hrest
    rw [holds_append, holds_append, holds_append] at hpair
    obtain ⟨-, hnul, -, hnul'⟩ := hpair
    have hlen : off + (e.key ++ ([0] ++ (e.value ++ [0]))).length =
        off + (e.key.length + 1) + (e.value.length + 1) := by
      simp only [List.length_append, List.length_singleton]
      omega
    rw [hlen] at hrest
    refine ⟨?_, ?_, ih _ hrest⟩
    · simpa [Holds, slice] using hnul
    · simpa [Holds, slice, Nat.add_assoc] using hnul'

/-- What is copied is what the map encodes once each string has its NUL. -/
theorem stringsAt_holds {pool : ℕ → Bool} {mem : ℕ → UInt8} (lens : List (ℕ × ℕ)) :
    ∀ (k buf : ℕ) (elts : List Elt), (stringsAt pool mem k lens buf).1 = some elts →
      Terminated mem (stringLengths lens) buf →
      lengthsOf elts = lens ∧ Holds mem buf (elts.flatMap emitStrings) := by
  induction lens with
  | nil =>
    intro k buf elts h _
    rw [← Option.some.inj h]
    exact ⟨rfl, rfl⟩
  | cons p lens ih =>
    obtain ⟨key, value⟩ := p
    intro k buf elts h hterm
    rw [stringLengths_cons] at hterm
    obtain ⟨hnul, hnul', hrest⟩ := hterm
    rw [stringsAt] at h
    by_cases hkey : pool k = true
    · by_cases hvalue : pool (k + 1) = true
      · rw [if_pos hkey, if_pos hvalue] at h
        obtain ⟨rest, hrun, rfl⟩ := Option.map_eq_some_iff.mp h
        obtain ⟨hlens, hholds⟩ := ih _ _ rest hrun hrest
        refine ⟨?_, ?_⟩
        · simp only [lengthsOf, List.map_cons, slice_length] at hlens ⊢
          rw [hlens]
        · rw [List.flatMap_cons, holds_append]
          simp only [emitStrings, List.append_assoc]
          rw [holds_append, holds_append, holds_append]
          refine ⟨⟨holds_slice _ _ _, ?_, ?_, ?_⟩, ?_⟩
          · rw [slice_length]
            simp [Holds, slice, hnul]
          · rw [slice_length, List.length_singleton, Nat.add_assoc]
            exact holds_slice _ _ _
          · simp only [slice_length, List.length_singleton, Nat.add_assoc]
            simpa [Holds, slice, Nat.add_assoc] using hnul'
          · simp only [List.length_append, slice_length, List.length_singleton]
            rw [show buf + (key + (1 + (value + 1))) = buf + (key + 1) + (value + 1) by omega]
            exact hholds
      · rw [if_pos hkey, if_neg hvalue] at h
        exact absurd h (by simp)
    · rw [if_neg hkey] at h
      exact absurd h (by simp)

/-! ### The call -/

/-- The count and the lengths lie inside of the map, and so do the strings up to the first
refused allocation; when none is refused each string has its NUL. -/
def MapFits (pool : ℕ → Bool) (mem : ℕ → UInt8) (len : ℕ) : Prop :=
  let count := u32At mem 0
  let ls := stringLengths (lengthsAt mem count 4).1
  4 ≤ len ∧ (pool 0 = true →
    4 + 8 * count + stringsSize (granted pool 1 ls) ≤ len ∧
      ((granted pool 1 ls).length = ls.length → Terminated mem ls (4 + 8 * count)))

theorem unmarshalAt_empty (pool : ℕ → Bool) (mem : ℕ → UInt8) : (unmarshalAt pool mem 0).2 = [] := by
  simp only [unmarshalAt, if_true]
  split
  · rfl
  · rfl

theorem wellFormed_iff {mem : ℕ → UInt8} {len : ℕ} (h4 : 4 ≤ len) :
    WellFormed (slice mem 0 len) ↔ ∃ elts : List Elt, elts.length < 2 ^ 32 ∧
      (∀ e ∈ elts, Short e) ∧ (encoding elts).length ≤ len ∧ Holds mem 0 (encoding elts) := by
  have hne : slice mem 0 len ≠ [] := by
    intro h
    have hlen := slice_length mem 0 len
    rw [h, List.length_nil] at hlen
    omega
  simp only [WellFormed, hne, false_or, prefix_slice_iff]

theorem lengthsAt_lt (mem : ℕ → UInt8) (n : ℕ) :
    ∀ buf, ∀ p ∈ (lengthsAt mem n buf).1, p.1 < 2 ^ 32 ∧ p.2 < 2 ^ 32 := by
  induction n with
  | zero => intro buf p hp; exact absurd hp List.not_mem_nil
  | succ n ih =>
    intro buf p hp
    rcases List.mem_cons.mp hp with rfl | hp
    · exact ⟨u32At_lt mem buf, u32At_lt mem (buf + 4)⟩
    · exact ih (buf + 8) p hp

/-- When all strings are copied and lie inside of the map, it is well formed exactly when each
of them has its NUL. -/
theorem wellFormed_iff_terminated {pool : ℕ → Bool} {mem : ℕ → UInt8} {len : ℕ} (h4 : 4 ≤ len)
    {elts : List Elt} (hrun : (stringsAt pool mem 1 (lengthsAt mem (u32At mem 0) 4).1
      (4 + 8 * u32At mem 0)).1 = some elts)
    (hend : 4 + 8 * u32At mem 0 +
      stringsSize (stringLengths (lengthsAt mem (u32At mem 0) 4).1) ≤ len) :
    WellFormed (slice mem 0 len) ↔
      Terminated mem (stringLengths (lengthsAt mem (u32At mem 0) 4).1) (4 + 8 * u32At mem 0) := by
  rw [wellFormed_iff h4]
  constructor
  · intro h
    obtain ⟨es, hcount, hshort, -, hholds⟩ := h
    rw [encoding, holds_append, holds_append, List.length_append, emitLengths_length,
      u32Bytes_length] at hholds
    obtain ⟨⟨hn, hlens⟩, hstrings⟩ := hholds
    have heq : u32At mem 0 = es.length := u32At_of_holds hcount hn
    rw [heq, (lengthsAt_holds es hshort 4).mp hlens]
    refine holds_terminated es _ ?_
    rwa [Nat.zero_add] at hstrings
  · intro hterm
    obtain ⟨hlens, hstrings⟩ := stringsAt_holds _ _ _ elts hrun hterm
    have hn : elts.length = u32At mem 0 := by
      have h := congrArg List.length hlens
      rwa [lengthsOf, List.length_map, lengthsAt_length] at h
    have hshort : ∀ e ∈ elts, Short e := by
      intro e he
      refine lengthsAt_lt mem (u32At mem 0) 4 (e.key.length, e.value.length) ?_
      rw [← hlens]
      exact List.mem_map_of_mem he
    refine ⟨elts, by rw [hn]; exact u32At_lt mem 0, hshort, ?_, ?_⟩
    · simp only [encoding, List.length_append, u32Bytes_length, emitLengths_length,
        emitStrings_length, hlens, hn]
      exact hend
    · rw [encoding, holds_append, holds_append, List.length_append, emitLengths_length,
        u32Bytes_length, hn, Nat.zero_add]
      refine ⟨⟨?_, ?_⟩, ?_⟩
      · rw [u32Bytes_u32At]
        exact holds_slice mem 0 4
      · rw [lengthsAt_holds elts hshort, hn, hlens]
      · rw [Nat.zero_add]
        exact hstrings

/-- A call stays inside of the map and accepts well-formed maps only exactly when what the
count and the lengths describe lies inside of it and each string has its NUL. -/
theorem unmarshal_safe_iff (pool : ℕ → Bool) (mem : ℕ → UInt8) (len : ℕ) :
    (ReadsWithin len (unmarshalAt pool mem len).2 ∧
        ((unmarshalAt pool mem len).1.isSome = true → WellFormed (slice mem 0 len))) ↔
      (len = 0 ∨ MapFits pool mem len) := by
  by_cases hlen : len = 0
  · subst hlen
    refine iff_of_true ⟨?_, fun _ => Or.inl rfl⟩ (Or.inl rfl)
    rw [unmarshalAt_empty]
    exact fun r hr => absurd hr List.not_mem_nil
  · simp only [hlen, false_or, MapFits, unmarshalAt, if_false]
    have hhead : ReadsWithin len [((0, 4) : Read)] ↔ 4 ≤ len := by simp [ReadsWithin]
    by_cases h4 : 4 ≤ len
    · by_cases hpool : pool 0 = true
      · rw [if_pos hpool]
        simp only [within_append, hhead, h4, true_and, lengthsAt_within mem len _ 4 h4]
        by_cases htable : 4 + 8 * u32At mem 0 ≤ len
        · rw [stringsAt_within pool mem len _ 1 _ htable]
          simp only [htable, true_and]
          by_cases hend : 4 + 8 * u32At mem 0 + stringsSize
              (granted pool 1 (stringLengths (lengthsAt mem (u32At mem 0) 4).1)) ≤ len
          · simp only [hend, true_and, hpool, forall_true_left]
            rw [stringsAt_isSome]
            refine forall_congr' fun hall => ?_
            obtain ⟨elts, hrun⟩ := Option.isSome_iff_exists.mp
              ((stringsAt_isSome pool mem _ 1 (4 + 8 * u32At mem 0)).mpr hall)
            rw [granted_all _ _ _ hall] at hend
            exact wellFormed_iff_terminated h4 hrun hend
          · simp [hend, hpool]
        · refine iff_of_false (fun h => htable h.1.1) (fun h => htable ?_)
          have hend := (h hpool).1
          omega
      · rw [if_neg hpool]
        simp only [hhead, h4, true_and, hpool]
        simp
    · refine iff_of_false (fun h => h4 ?_) (fun h => h4 h.1)
      obtain ⟨hwithin, -⟩ := h
      split at hwithin
      · exact hhead.mp ((within_append _ _ _).mp ((within_append _ _ _).mp hwithin).1).1
      · exact hhead.mp hwithin

/-- Four bytes that announce a pair: its lengths are read behind the map. -/
theorem unmarshal_overreads :
    ¬ ∀ (pool : ℕ → Bool) (mem : ℕ → UInt8) (len : ℕ),
      ReadsWithin len (unmarshalAt pool mem len).2 ∧
        ((unmarshalAt pool mem len).1.isSome = true → WellFormed (slice mem 0 len)) := by
  intro h
  obtain ⟨hwithin, -⟩ := h (fun _ => true) (fun i => if i = 0 then 1 else 0) 4
  have hread := hwithin (4, 4) (by decide)
  exact absurd hread (by decide)

/-! ### The map as a list of bytes -/

theorem readU32_slice (mem : ℕ → UInt8) (off n : ℕ) :
    readU32 (slice mem off n) =
      if 4 ≤ n then .ok (u32At mem off, slice mem (off + 4) (n - 4)) else .error .overread := by
  match n with
  | 0 => rfl
  | 1 => rfl
  | 2 => rfl
  | 3 => rfl
  | n + 4 =>
    rw [if_pos (by omega), Nat.add_comm n 4, slice_add, Nat.add_sub_cancel_left]
    rfl

theorem readLengths_slice (mem : ℕ → UInt8) (n : ℕ) :
    ∀ (off m : ℕ), readLengths n (slice mem off m) =
      if 8 * n ≤ m then .ok ((lengthsAt mem n off).1, slice mem (off + 8 * n) (m - 8 * n))
      else .error .overread := by
  induction n with
  | zero =>
    intro off m
    rw [if_pos (by omega)]
    rfl
  | succ n ih =>
    intro off m
    rw [readLengths, readU32_slice]
    by_cases h4 : 4 ≤ m
    · rw [if_pos h4, bind_ok]
      simp only [readU32_slice]
      by_cases h8 : 4 ≤ m - 4
      · rw [if_pos h8, bind_ok]
        simp only [Nat.add_assoc, ih]
        by_cases hn : 8 * n ≤ m - 4 - 4
        · rw [if_pos hn, if_pos (by omega), bind_ok, lengthsAt,
            show off + (4 + (4 + 8 * n)) = off + 8 * (n + 1) by omega,
            show m - 4 - 4 - 8 * n = m - 8 * (n + 1) by omega]
        · rw [if_neg hn, if_neg (by omega)]
          rfl
      · rw [if_neg h8, if_neg (by omega)]
        rfl
    · rw [if_neg h4, if_neg (by omega)]
      rfl

theorem readString_slice (mem : ℕ → UInt8) (room : Bool) (l off n : ℕ) :
    readString room l (slice mem off n) =
      if room = true then
        if l + 1 ≤ n then .ok (slice mem off l, slice mem (off + (l + 1)) (n - (l + 1)))
        else .error .overread
      else .error .nomem := by
  rw [readString, slice_length]
  cases room with
  | false => rfl
  | true =>
    simp only [Bool.not_true, Bool.false_eq_true, if_false, if_true]
    by_cases hl : l + 1 ≤ n
    · obtain ⟨m, rfl⟩ := Nat.exists_eq_add_of_le hl
      rw [if_neg (by omega), if_pos hl, slice_add mem off (l + 1) m,
        List.drop_left' (slice_length mem off (l + 1)), Nat.add_sub_cancel_left,
        slice_add mem off l 1, List.append_assoc, List.take_left' (slice_length mem off l)]
    · rw [if_neg hl, if_pos (by omega)]

def ofAnswer : Option (List Elt) → Except Failure (List Elt)
  | some elts => .ok elts
  | none => .error .nomem

theorem readStrings_slice (pool : ℕ → Bool) (mem : ℕ → UInt8) (len : ℕ) (lens : List (ℕ × ℕ)) :
    ∀ (k off n : ℕ), off + n = len →
      (ReadsWithin len (stringsAt pool mem k lens off).2 →
        readStrings pool k lens (slice mem off n) = ofAnswer (stringsAt pool mem k lens off).1) ∧
      (¬ ReadsWithin len (stringsAt pool mem k lens off).2 →
        readStrings pool k lens (slice mem off n) = .error .overread) := by
  induction lens with
  | nil =>
    intro k off n _
    exact ⟨fun _ => rfl, fun h => absurd (fun r hr => absurd hr List.not_mem_nil) h⟩
  | cons p lens ih =>
    obtain ⟨key, value⟩ := p
    intro k off n hn
    rw [stringsAt, readStrings, readString_slice]
    by_cases hkey : pool k = true
    · rw [if_pos hkey, if_pos hkey]
      by_cases hfits : key + 1 ≤ n
      · rw [if_pos hfits, bind_ok]
        simp only [readString_slice]
        by_cases hvalue : pool (k + 1) = true
        · rw [if_pos hvalue, if_pos hvalue]
          simp only [within_cons]
          by_cases hfits' : value + 1 ≤ n - (key + 1)
          · rw [if_pos hfits', bind_ok]
            obtain ⟨hin, hout⟩ := ih (k + 2) (off + (key + 1) + (value + 1))
              (n - (key + 1) - (value + 1)) (by omega)
            constructor
            · intro hw
              simp only [hin hw.2.2]
              cases (stringsAt pool mem (k + 2) lens (off + (key + 1) + (value + 1))).1 with
              | none => rfl
              | some elts => rfl
            · intro hw
              simp only [hout fun h => hw ⟨by omega, by omega, h⟩]
              rfl
          · rw [if_neg hfits']
            exact ⟨fun hw => absurd hw.2.1 (by omega), fun _ => rfl⟩
        · rw [if_neg hvalue, if_neg hvalue]
          refine ⟨fun _ => rfl, fun hw => absurd ?_ hw⟩
          intro r hr
          rw [List.mem_singleton.mp hr]
          show off + (key + 1) ≤ len
          omega
      · rw [if_neg hfits]
        have hlong : ¬ off + (key + 1) ≤ len := by omega
        refine ⟨fun hw => absurd ?_ hlong, fun _ => rfl⟩
        split at hw
        · exact ((within_cons _ _ _).mp hw).1
        · exact ((within_cons _ _ _).mp hw).1
    · rw [if_neg hkey, if_neg hkey]
      exact ⟨fun _ => rfl, fun hw => absurd (fun r hr => absurd hr List.not_mem_nil) hw⟩

/-- On a list of bytes the call gives the same answer, or stops at its first read behind it. -/
theorem pairsUnmarshal_slice (pool : ℕ → Bool) (mem : ℕ → UInt8) (len : ℕ) :
    (ReadsWithin len (unmarshalAt pool mem len).2 →
        pairsUnmarshal pool (slice mem 0 len) = ofAnswer (unmarshalAt pool mem len).1) ∧
      (¬ ReadsWithin len (unmarshalAt pool mem len).2 →
        pairsUnmarshal pool (slice mem 0 len) = .error .overread) := by
  have hhead : ReadsWithin len [((0, 4) : Read)] ↔ 4 ≤ len := by simp [ReadsWithin]
  rw [pairsUnmarshal, slice_length, unmarshalAt]
  by_cases hlen : len = 0
  · subst hlen
    simp only [if_true, bind_ok]
    cases pool 0 with
    | true => exact ⟨fun _ => rfl, fun h => absurd (fun r hr => absurd hr List.not_mem_nil) h⟩
    | false => exact ⟨fun _ => rfl, fun h => absurd (fun r hr => absurd hr List.not_mem_nil) h⟩
  · simp only [if_neg hlen, readU32_slice]
    by_cases h4 : 4 ≤ len
    · rw [if_pos h4, bind_ok]
      cases hpool : pool 0 with
      | false =>
        simp only [Bool.not_false, if_true, Bool.false_eq_true, if_false, hhead]
        exact ⟨fun _ => rfl, fun h => absurd h4 h⟩
      | true =>
        simp only [Bool.not_true, Bool.false_eq_true, if_false, if_true, readLengths_slice,
          within_append, hhead, h4, true_and, lengthsAt_within mem len _ 4 h4, Nat.zero_add]
        by_cases htable : 8 * u32At mem 0 ≤ len - 4
        · rw [if_pos htable, bind_ok]
          obtain ⟨hin, hout⟩ := readStrings_slice pool mem len (lengthsAt mem (u32At mem 0) 4).1 1
            (4 + 8 * u32At mem 0) (len - 4 - 8 * u32At mem 0) (by omega)
          exact ⟨fun hw => hin hw.2, fun hw => hout fun h => hw ⟨by omega, h⟩⟩
        · rw [if_neg htable]
          exact ⟨fun hw => absurd hw.1 (by omega), fun _ => rfl⟩
    · rw [if_neg h4]
      refine ⟨fun hw => absurd ?_ h4, fun _ => rfl⟩
      split at hw
      · exact hhead.mp ((within_append _ _ _).mp ((within_append _ _ _).mp hw).1).1
      · exact hhead.mp hw

end NgxWasm.ProxyWasm.Pairs
