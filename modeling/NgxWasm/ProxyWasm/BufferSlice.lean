import NgxWasm.ProxyWasm.OutPointers

/-!
# Which part of a buffer the guest gets

`proxy_get_buffer_bytes` takes an offset and a limit. The offset is only checked
for overflow, and the loop over a chain marks the limit by clearing its running
length: the links behind the limit are copied as well, up to the limit again.
What is copied is what lies between `pos` and `last`, also where the length
counts bytes of a file.
-/

namespace NgxWasm.ProxyWasm.BufferSlice

open NgxWasm NgxWasm.Wavm NgxWasm.ProxyWasm.GuestData NgxWasm.ProxyWasm.OutPointers

/-- `size_t offset = args[1].of.i32`. -/
def offsetArg (args : ℕ → BitVec 32) : ℕ := ((args 1).signExtend 64).toNat

/-- `size_t max_len = args[2].of.i32`. -/
def maxLenArg (args : ℕ → BitVec 32) : ℕ := ((args 2).signExtend 64).toNat

/-- What the call asks the guest's allocator for, before the cut to 32 bits. -/
def asked (args : ℕ → BitVec 32) (source : Source) : ℕ := min source.bytes.length (maxLenArg args)

/-- What the call writes behind the address of the block, in the order of the copies. -/
def written (args : ℕ → BitVec 32) (source : Source) : Bytes :=
  match source.start with
  | some start => start.take (asked args source)
  | none => (pieces (maxLenArg args) source.bufs 0).flatten

/-- The call allocated, stored address and length, and wrote the block. -/
structure Performs (mem : Memory) (guest : Allocator) (args : ℕ → BitVec 32) (source : Source)
    (p : BitVec 32) (out : Call) : Prop where
  alloc : (guest mem (BitVec.ofNat 32 (asked args source))).1 = some p
  nonzero : p ≠ 0
  writes : asked args source < 2 ^ 32 →
    Copied
      ((Call.put ⟨(guest mem (BitVec.ofNat 32 (asked args source))).2, []⟩
          ⟨mem.base, (args 3).toNat⟩ (u32Bytes p.toNat)).put
        ⟨mem.base, (args 4).toNat⟩ (u32Bytes (asked args source)))
      p.toNat (written args source) out

/-- The guest gets what it asked for, whatever links the content is cut into. -/
structure Exact (args : ℕ → BitVec 32) (source : Source) : Prop where
  length : (BitVec.ofNat 32 (asked args source)).toNat =
    min (maxLenArg args) (source.bytes.length - offsetArg args)
  bytes : written args source = (source.bytes.drop (offsetArg args)).take
    (min (maxLenArg args) (source.bytes.length - offsetArg args))
  same : written args source = written args (.plain source.bytes)

/-- The content of the links that the copy loop visits behind the one in which
the running length passes the limit. -/
def pastLimit (maxLen : ℕ) : List Buf → ℕ → Bytes
  | [], _ => []
  | b :: bufs, len =>
    if b.last then []
    else if maxLen < len + b.data.length then (visited bufs).flatMap Buf.data
    else pastLimit maxLen bufs (len + b.data.length)

def pastLimitOf (maxLen : ℕ) (source : Source) : Bytes :=
  match source.start with
  | some _ => []
  | none => pastLimit maxLen source.bufs 0

/-- What lies in memory where the copy reads. -/
def inMemory (source : Source) : Bytes :=
  match source.start with
  | some start => start
  | none => (visited source.bufs).flatMap Buf.data

/-- What is in memory is the content, the slice asked for is its beginning, it has
less than 2^32 bytes, and a chain has nothing behind the link that reaches over
the limit. -/
structure Beginning (args : ℕ → BitVec 32) (source : Source) : Prop where
  memory : (inMemory source).take (maxLenArg args) = source.bytes.take (maxLenArg args)
  start : (source.bytes.drop (offsetArg args)).take (maxLenArg args) =
    source.bytes.take (maxLenArg args)
  short : asked args source < 2 ^ 32
  cut : pastLimitOf (maxLenArg args) source = []

/-! ### The copy loop -/

theorem visited_cons_bytes (b : Buf) (bufs : List Buf) :
    (visited (b :: bufs)).flatMap Buf.data =
      b.data ++ if b.last then [] else (visited bufs).flatMap Buf.data := by
  rw [visited]
  cases b.last <;> simp

theorem pastLimit_nil {maxLen : ℕ} (bufs : List Buf) :
    ∀ len, (visited bufs).flatMap Buf.data = [] → pastLimit maxLen bufs len = [] := by
  induction bufs with
  | nil => intro len _; rfl
  | cons b bufs ih =>
    intro len h
    rw [visited_cons_bytes, List.append_eq_nil_iff] at h
    rw [pastLimit]
    cases hlast : b.last with
    | true => rfl
    | false =>
      rw [hlast] at h
      simp only [Bool.false_eq_true, if_false] at h ⊢
      split
      · exact h.2
      · exact ih _ h.2

/-- The loop copies the content up to the limit, and then more exactly when a
link behind the limit has content. -/
theorem pieces_flatten {maxLen : ℕ} (hpos : 0 < maxLen) (bufs : List Buf) :
    ∀ len, len ≤ maxLen →
      ∃ more, (pieces maxLen bufs len).flatten =
          ((visited bufs).flatMap Buf.data).take (maxLen - len) ++ more ∧
        (more = [] ↔ pastLimit maxLen bufs len = []) ∧
        (more ≠ [] → maxLen - len ≤ ((visited bufs).flatMap Buf.data).length) := by
  induction bufs with
  | nil =>
    intro len _
    exact ⟨[], by simp [pieces, visited], by simp [pastLimit], fun h => absurd rfl h⟩
  | cons b bufs ih =>
    intro len hlen
    rw [visited_cons_bytes, pieces, pastLimit]
    by_cases hcut : maxLen < len + b.data.length
    · have hk : b.data.length - (len + b.data.length - maxLen) = maxLen - len := by omega
      have htake : ∀ ys : Bytes, (b.data ++ ys).take (maxLen - len) = b.data.take (maxLen - len) := by
        intro ys
        rw [List.take_append_of_le_length]
        omega
      simp only [hcut, if_true, hk, htake]
      cases hlast : b.last with
      | true => exact ⟨[], by simp, by simp, fun h => absurd rfl h⟩
      | false =>
        simp only [Bool.false_eq_true, if_false, List.flatten_cons]
        refine ⟨_, rfl, ?_, fun _ => by rw [List.length_append]; omega⟩
        -- behind the limit the running length starts at 0 again
        obtain ⟨more, heq, hmore, -⟩ := ih 0 (Nat.zero_le _)
        rw [heq, List.append_eq_nil_iff, Nat.sub_zero, hmore]
        constructor
        · intro h
          rcases List.take_eq_nil_iff.mp h.1 with hzero | hnil
          · omega
          · exact hnil
        · intro h
          exact ⟨by rw [h, List.take_nil], pastLimit_nil bufs 0 h⟩
    · simp only [hcut, if_false, List.take_length]
      cases hlast : b.last with
      | true =>
        refine ⟨[], ?_, by simp, fun h => absurd rfl h⟩
        rw [if_pos rfl, if_pos rfl, List.append_nil, List.append_nil, List.take_of_length_le (by omega)]
        simp
      | false =>
        obtain ⟨more, heq, hmore, hlong⟩ := ih (len + b.data.length) (by omega)
        simp only [Bool.false_eq_true, if_false, List.flatten_cons, heq]
        refine ⟨more, ?_, hmore, fun hne => by have := hlong hne; rw [List.length_append]; omega⟩
        have hsub : maxLen - len = b.data.length + (maxLen - (len + b.data.length)) := by omega
        rw [hsub, List.take_length_add_append, List.append_assoc]

theorem written_eq {args : ℕ → BitVec 32} (source : Source) (hpos : 0 < maxLenArg args) :
    ∃ more, written args source = (inMemory source).take (maxLenArg args) ++ more ∧
      (more = [] ↔ pastLimitOf (maxLenArg args) source = []) ∧
      (more ≠ [] → maxLenArg args ≤ (inMemory source).length) := by
  unfold written inMemory pastLimitOf
  cases hstart : source.start with
  | some start =>
    refine ⟨[], ?_, by simp, fun h => absurd rfl h⟩
    dsimp only
    rw [asked, ← start_length hstart, Nat.min_comm, ← List.take_take, List.take_length,
      List.append_nil]
  | none =>
    obtain ⟨more, heq, hmore, hlong⟩ := pieces_flatten hpos source.bufs 0 (Nat.zero_le _)
    exact ⟨more, heq, hmore, hlong⟩

/-! ### Calls -/

theorem past_guard {α : Type} {P : Prop} [Decidable P] {x y z : α} (h : (if P then x else y) = z)
    (hx : x ≠ z) : ¬ P ∧ y = z := by
  by_cases hp : P
  · rw [if_pos hp] at h
    exact absurd h hx
  · rw [if_neg hp] at h
    exact ⟨hp, h⟩

theorem returnBuffer_ok {guest : Allocator} {c out : Call} {rbuf rlen : HostPtr}
    {offset maxLen : ℕ} {source : Source} {block : Block}
    (h : returnBuffer guest c rbuf rlen offset maxLen source = (.ok (some block), out)) :
    min source.bytes.length maxLen ≠ 0 ∧
      (guest c.mem (BitVec.ofNat 32 (min source.bytes.length maxLen))).1 = some block.ptr ∧
      block.ptr ≠ 0 ∧
      copySource maxLen (min source.bytes.length maxLen) source block.ptr
        ((Call.put ⟨(guest c.mem (BitVec.ofNat 32 (min source.bytes.length maxLen))).2, c.writes⟩ rbuf
          (u32Bytes block.ptr.toNat)).put rlen (u32Bytes (min source.bytes.length maxLen))) =
        some out := by
  unfold returnBuffer at h
  obtain ⟨-, h⟩ := past_guard h (by simp)
  obtain ⟨hne, h⟩ := past_guard h (by simp)
  refine ⟨hne, ?_⟩
  simp only [proxyWasmAlloc] at h
  cases ha : (guest c.mem (BitVec.ofNat 32 (min source.bytes.length maxLen))).1 with
  | none => simp [ha] at h
  | some p =>
    simp only [ha, Option.getD_some] at h
    by_cases hp : p = 0
    · simp [hp] at h
    · rw [if_neg hp] at h
      split at h
      · simp at h
      · rename_i c' hcopy
        simp only [Prod.mk.injEq, Answer.ok.injEq, Option.some.injEq] at h
        obtain ⟨hblock, hout⟩ := h
        subst hblock hout
        exact ⟨rfl, hp, hcopy⟩

theorem copySource_copied {args : ℕ → BitVec 32} {source : Source} {p : BitVec 32} {c out : Call}
    (hp : p ≠ 0) (hshort : asked args source < 2 ^ 32)
    (h : copySource (maxLenArg args) (asked args source) source p c = some out) :
    Copied c p.toNat (written args source) out := by
  have hsize : (source.bytes.take (asked args source)).length < 2 ^ 32 := by
    rw [List.length_take]
    omega
  unfold copySource at h
  unfold written
  cases hstart : source.start with
  | some start =>
    rw [hstart] at h
    have hspec := @start_copySpec c.mem start source.bytes (asked args source) (start_length hstart)
      (Nat.min_le_left _ _)
    exact hspec.copied p c out hp hsize h
  | none =>
    rw [hstart] at h
    have hspec := @chain_copySpec c.mem source.bufs source.bytes (maxLenArg args)
      (start_none_le hstart)
    exact hspec.copied p c out hp hsize h

theorem returnBuffer_performs {mem : Memory} {guest : Allocator} {args : ℕ → BitVec 32}
    {source : Source} {block : Block} {out : Call}
    (h : returnBuffer guest (enter mem) ⟨mem.base, (args 3).toNat⟩ ⟨mem.base, (args 4).toNat⟩
      (offsetArg args) (maxLenArg args) source = (.ok (some block), out)) :
    asked args source ≠ 0 ∧ Performs mem guest args source block.ptr out := by
  obtain ⟨hne, halloc, hp, hcopy⟩ := returnBuffer_ok h
  exact ⟨hne, halloc, hp, fun hshort => copySource_copied hp hshort hcopy⟩

theorem getBuffer_performs {mem : Memory} {guest : Allocator} {args : ℕ → BitVec 32}
    {source : Source} {block : Block} {out : Call}
    (h : getBuffer mem guest args source = (.ok (some block), out)) :
    asked args source ≠ 0 ∧ Performs mem guest args source block.ptr out := by
  unfold getBuffer at h
  cases h3 : hostLift mem (args 3) with
  | none => simp [h3] at h
  | some rbuf =>
    cases h4 : hostLift mem (args 4) with
    | none => simp [h3, h4] at h
    | some rlen =>
      obtain rfl := hostLift_eq h3
      obtain rfl := hostLift_eq h4
      cases source with
      | failed answer => cases answer <;> simp [h3, h4] at h
      | plain bytes =>
        simp only [h3, h4] at h
        exact returnBuffer_performs h
      | chain first rest =>
        simp only [h3, h4] at h
        exact returnBuffer_performs h

/-- A call that returns a block returns the slice that was asked for exactly when the slice is
the beginning of the content and no link behind the limit is left to copy. -/
theorem get_buffer_exact_iff {mem : Memory} {guest : Allocator} {args : ℕ → BitVec 32}
    {source : Source} {block : Block} {out : Call}
    (h : getBuffer mem guest args source = (.ok (some block), out)) :
    Performs mem guest args source block.ptr out ∧ (Exact args source ↔ Beginning args source) := by
  obtain ⟨hne, hperf⟩ := getBuffer_performs h
  refine ⟨hperf, ?_⟩
  have hpos : 0 < maxLenArg args := by
    unfold asked at hne
    omega
  obtain ⟨more, hw, hmore, hlong⟩ := written_eq source hpos
  obtain ⟨nomore, hplain, hnomore, -⟩ := written_eq (.plain source.bytes) hpos
  obtain rfl : nomore = [] := hnomore.mpr rfl
  have hbytes : inMemory (.plain source.bytes) = source.bytes := rfl
  rw [hbytes, List.append_nil] at hplain
  have hslice : (source.bytes.drop (offsetArg args)).take
      (min (maxLenArg args) (source.bytes.length - offsetArg args)) =
      (source.bytes.drop (offsetArg args)).take (maxLenArg args) := by
    rw [← List.take_take, ← List.length_drop, List.take_length]
  constructor
  · intro hx
    have hsame := hx.same
    rw [hw, hplain] at hsame
    -- nothing fits behind as many bytes as the limit
    have hnil : more = [] := by
      by_contra hne
      have hle := hlong hne
      have hpos := List.length_pos_iff.mpr hne
      have hcount := congrArg List.length hsame
      simp only [List.length_append, List.length_take] at hcount
      omega
    rw [hnil, List.append_nil] at hsame
    have hb := hx.bytes
    rw [hslice, hw, hnil, List.append_nil, hsame] at hb
    refine ⟨hsame, hb.symm, ?_, hmore.mp hnil⟩
    have hlen := hx.length
    have hcount := congrArg List.length hb
    simp only [List.length_take, List.length_drop] at hcount
    rw [BitVec.toNat_ofNat] at hlen
    unfold asked at hlen ⊢
    omega
  · intro hb
    have hnil : more = [] := hmore.mpr hb.cut
    rw [hnil, List.append_nil, hb.memory] at hw
    have hcount := congrArg List.length hb.start
    simp only [List.length_take, List.length_drop] at hcount
    have hshort := hb.short
    refine ⟨?_, ?_, ?_⟩
    · rw [BitVec.toNat_ofNat, Nat.mod_eq_of_lt hshort]
      unfold asked
      omega
    · rw [hslice, hw, hb.start]
    · rw [hw, hplain]

def pageMemory : Memory := ⟨0, 2 ^ 16, by decide, fun _ _ => 0⟩

/-- An allocator that always answers with the block at 1024. -/
def bump : Allocator := fun mem _ => (some 1024, mem)

/-- Offset, limit and two out-pointers. -/
def bufferArgs (offset maxLen : BitVec 32) (i : ℕ) : BitVec 32 :=
  match i with
  | 1 => offset
  | 2 => maxLen
  | 3 => 16
  | _ => 20

def held (data : Bytes) (last : Bool) : Buf := ⟨data, none, by simp, last⟩

def threeLinks : Source := .chain (held [1, 2, 3] false) [held [] false, held [4, 5] true]

theorem get_buffer_exact_whole :
    Performs pageMemory bump (bufferArgs 0 5) threeLinks 1024
      (getBuffer pageMemory bump (bufferArgs 0 5) threeLinks).2 ∧
      (Exact (bufferArgs 0 5) threeLinks ↔ Beginning (bufferArgs 0 5) threeLinks) := by
  have hok : (getBuffer pageMemory bump (bufferArgs 0 5) threeLinks).1 =
      .ok (some ⟨1024, [1, 2, 3, 4, 5]⟩) := by decide
  exact get_buffer_exact_iff (Prod.ext hok rfl)

/-- One buffer at offset 1 gives its beginning; a chain with limit 2 fills a
block of two bytes with four. -/
theorem buffer_wrong_slice :
    ((getBuffer pageMemory bump (bufferArgs 1 2) (.chain (held [1, 2, 3] true) [])).1 =
      .ok (some ⟨1024, [1, 2]⟩) ∧ ¬ Exact (bufferArgs 1 2) (.chain (held [1, 2, 3] true) [])) ∧
    ((getBuffer pageMemory bump (bufferArgs 0 2) threeLinks).1 = .ok (some ⟨1024, [1, 2]⟩) ∧
      asked (bufferArgs 0 2) threeLinks = 2 ∧
      written (bufferArgs 0 2) threeLinks = [1, 2, 4, 5] ∧
      ¬ Exact (bufferArgs 0 2) threeLinks) := by
  refine ⟨⟨by decide, fun h => ?_⟩, by decide, by decide,
    by decide, fun h => ?_⟩
  · exact absurd h.bytes (by decide)
  · exact absurd h.bytes (by decide)

end NgxWasm.ProxyWasm.BufferSlice
