import NgxWasm.Wavm.LiftBounds
import NgxWasm.ProxyWasm.GuestData

/-!
# Out-pointers after the guest's allocator

The host functions lift their out-pointers, call the guest's allocator and then
write through what they lifted. The guest finds address and length where it asked
for them when the allocator left the memory where it was and the three writes do
not contradict each other.
-/

namespace NgxWasm.ProxyWasm.OutPointers

open NgxWasm NgxWasm.Wavm NgxWasm.Lib.Overlay NgxWasm.ProxyWasm.Pairs NgxWasm.ProxyWasm.GuestData

/-- The guest's memory as the guest sees it. -/
def view (mem : Memory) : ℕ → UInt8 := mem.heap mem.base

structure Returned (mem : Memory) (outs : BitVec 32 × BitVec 32) (b : Block) : Prop where
  ptr : Holds (view mem) ⟨outs.1.toNat, u32Bytes b.ptr.toNat⟩
  short : b.bytes.length < 2 ^ 32
  len : Holds (view mem) ⟨outs.2.toNat, u32Bytes b.bytes.length⟩
  inside : b.ptr.toNat + b.bytes.length ≤ mem.size
  bytes : Holds (view mem) ⟨b.ptr.toNat, b.bytes⟩

/-- A returned block is where the out-pointers say, and no write went to an area
the memory had left by then. -/
def Sound (outs : BitVec 32 × BitVec 32) (r : Answer × Call) : Prop :=
  (∀ b, r.1 = .ok (some b) → Returned r.2.mem outs b) ∧ ∀ w ∈ r.2.writes, w.1 = w.2

theorem u32Bytes_mod (n : ℕ) : u32Bytes (n % 2 ^ 32) = u32Bytes n := by
  simp only [u32Bytes, List.cons.injEq, and_true]
  refine ⟨?_, ?_, ?_, ?_⟩ <;> apply UInt8.toNat_inj.mp <;> simp only [UInt8.toNat_ofNat'] <;> omega

theorem u32Bytes_inj {m n : ℕ} (h : u32Bytes m = u32Bytes n) : m % 2 ^ 32 = n % 2 ^ 32 := by
  rw [← u32Bytes_mod m, ← u32Bytes_mod n] at h
  have hm := u32Val_u32Bytes (m % 2 ^ 32) (Nat.mod_lt _ (by decide))
  have hn := u32Val_u32Bytes (n % 2 ^ 32) (Nat.mod_lt _ (by decide))
  rw [← hm, ← hn, h]

/-- Two words at one place that agree are one number. -/
theorem word_of_agree {a m n : ℕ} (h : Agree ⟨a, u32Bytes m⟩ ⟨a, u32Bytes n⟩) :
    u32Bytes m = u32Bytes n := by
  have hlen : (u32Bytes m).length = (u32Bytes n).length := rfl
  apply List.ext_getElem hlen
  intro i hm hn
  exact h i i _ _ (List.getElem?_eq_getElem hm) (List.getElem?_eq_getElem hn) rfl

theorem put_view (c : Call) (off : ℕ) (bytes : Bytes) :
    view (c.put ⟨c.mem.base, off⟩ bytes).mem = apply (view c.mem) ⟨off, bytes⟩ := by
  simp only [view, Call.put, Memory.store, Function.update_self]

/-- The call copied `bytes` to `p` and did nothing else. -/
structure Copied (c : Call) (p : ℕ) (bytes : Bytes) (c' : Call) : Prop where
  base : c'.mem.base = c.mem.base
  size : c'.mem.size = c.mem.size
  view : view c'.mem = apply (view c.mem) ⟨p, bytes⟩
  writes : ∃ l, c'.writes = c.writes ++ l ∧ ∀ w ∈ l, w.1 = w.2
  inside : bytes ≠ [] → p + bytes.length ≤ c.mem.size

theorem copied_nil (c : Call) (p : ℕ) : Copied c p [] c where
  base := rfl
  size := rfl
  view := (apply_nil _ _).symm
  writes := ⟨[], by simp, by simp⟩
  inside := fun h => absurd rfl h

theorem Copied.append {c c₁ c₂ : Call} {p : ℕ} {xs ys : Bytes} (hx : Copied c p xs c₁)
    (hy : Copied c₁ (p + xs.length) ys c₂) : Copied c p (xs ++ ys) c₂ where
  base := hy.base.trans hx.base
  size := hy.size.trans hx.size
  view := by rw [hy.view, hx.view, apply_append]
  writes := by
    obtain ⟨l, hl, hfresh⟩ := hx.writes
    obtain ⟨l', hl', hfresh'⟩ := hy.writes
    refine ⟨l ++ l', by rw [hl', hl, List.append_assoc], ?_⟩
    intro w hw
    exact (List.mem_append.mp hw).elim (hfresh w) (hfresh' w)
  inside := by
    intro hne
    rw [List.length_append]
    by_cases hys : ys = []
    · subst hys
      have hxs : xs ≠ [] := fun h => hne (by rw [h, List.append_nil])
      have := hx.inside hxs
      simpa using this
    · have := hy.inside hys
      rw [hx.size] at this
      omega

theorem lift_at {mem : Memory} {p size align : BitVec 32} {q : HostPtr}
    (h : memoryLift mem p size align = .at q) : q = ⟨mem.base, p.toNat⟩ := by
  unfold memoryLift at h
  split at h
  · split at h <;> cases h
  · split at h
    · cases h
    · split at h
      · cases h
      · exact (Lifted.at.inj h).symm

theorem lift_ne_null {mem : Memory} {p size align : BitVec 32} (hp : p ≠ 0) :
    memoryLift mem p size align ≠ .null := by
  unfold memoryLift
  rw [if_neg hp]
  split
  · simp
  · split <;> simp

/-- A filled block, with what the bound check said of its size. -/
theorem fill_spec (c : Call) {p : BitVec 32} (size : ℕ) (hp : p ≠ 0) (bytes : Bytes) :
    ((c.fill p size bytes).isSome ↔ Within c.mem p (size % 2 ^ 32)) ∧
    ∀ c', c.fill p size bytes = some c' → c' = c.put ⟨c.mem.base, p.toNat⟩ bytes := by
  have hfits := lift_ne_bad_iff c.mem p (BitVec.ofNat 32 size)
  rw [BitVec.toNat_ofNat] at hfits
  rw [← hfits]
  unfold Call.fill
  cases hl : memoryLift c.mem p (BitVec.ofNat 32 size) 1 with
  | bad => simp
  | null => exact absurd hl (lift_ne_null hp)
  | «at» q =>
    rw [lift_at hl]
    simp [eq_comm]

theorem put_copied (c : Call) (p : BitVec 32) (bytes : Bytes)
    (h : bytes ≠ [] → p.toNat + bytes.length ≤ c.mem.size) :
    Copied c p.toNat bytes (c.put ⟨c.mem.base, p.toNat⟩ bytes) where
  base := rfl
  size := rfl
  view := put_view c p.toNat bytes
  writes := ⟨[(c.mem.base, c.mem.base)], rfl, by simp⟩
  inside := h

/-- What must hold of the guest's answer for address, length and block to be
readable together: the block is shorter than 2^32, the length written is its
length, and the three writes agree where they meet. -/
structure Consistent (outs : BitVec 32 × BitVec 32) (p : BitVec 32) (size : ℕ)
    (block copied : Bytes) : Prop where
  short : block.length < 2 ^ 32
  length : size % 2 ^ 32 = block.length
  agree : [⟨p.toNat, copied⟩, ⟨outs.1.toNat, u32Bytes p.toNat⟩,
    ⟨outs.2.toNat, u32Bytes size⟩].Pairwise Agree

/-- The memory once the out-pointers are written. -/
def withWords (mem : Memory) (outs : BitVec 32 × BitVec 32) (p : BitVec 32) (size : ℕ) : ℕ → UInt8 :=
  apply (apply (view mem) ⟨outs.1.toNat, u32Bytes p.toNat⟩) ⟨outs.2.toNat, u32Bytes size⟩

/-- The block is inside the memory, what was copied agrees with it, and behind that its bytes
were there. -/
structure Filled (mem : Memory) (outs : BitVec 32 × BitVec 32) (p : BitVec 32) (size : ℕ)
    (block copied : Bytes) : Prop where
  inside : p.toNat + block.length ≤ mem.size
  agree : Agree ⟨p.toNat, block⟩ ⟨p.toNat, copied⟩
  behind : Holds (withWords mem outs p size) ⟨p.toNat + copied.length, block.drop copied.length⟩

/-- The block first, then the out-pointers through addresses in `area`. -/
theorem late_sound_iff {c : Call} {outs : BitVec 32 × BitVec 32} {area size : ℕ} {p : BitVec 32}
    {block : Bytes} (hfresh : ∀ w ∈ c.writes, w.1 = w.2)
    (hin : size % 2 ^ 32 = block.length → p.toNat + block.length ≤ c.mem.size) :
    Sound outs (.ok (some ⟨p, block⟩),
      ((c.put ⟨c.mem.base, p.toNat⟩ block).put ⟨area, outs.1.toNat⟩ (u32Bytes p.toNat)).put
        ⟨area, outs.2.toNat⟩ (u32Bytes size)) ↔
      c.mem.base = area ∧ Consistent outs p size block block := by
  set c₁ := c.put ⟨c.mem.base, p.toNat⟩ block with hc₁
  set c₂ := c₁.put ⟨area, outs.1.toNat⟩ (u32Bytes p.toNat) with hc₂
  set c₃ := c₂.put ⟨area, outs.2.toNat⟩ (u32Bytes size) with hc₃
  have hwrites : (∀ w ∈ c₃.writes, w.1 = w.2) ↔ c.mem.base = area := by
    have hlist : c₃.writes =
        c.writes ++ [(c.mem.base, c.mem.base)] ++ [(area, c.mem.base)] ++ [(area, c.mem.base)] :=
      rfl
    rw [hlist]
    constructor
    · intro h
      exact (h (area, c.mem.base) (by simp)).symm
    · rintro rfl w hw
      simp only [List.mem_append, List.mem_singleton] at hw
      rcases hw with ((hw | rfl) | rfl) | rfl
      · exact hfresh w hw
      all_goals rfl
  have hview : c.mem.base = area →
      view c₃.mem = [⟨p.toNat, block⟩, ⟨outs.1.toNat, u32Bytes p.toNat⟩,
        ⟨outs.2.toNat, u32Bytes size⟩].foldl apply (view c.mem) := by
    rintro rfl
    have h₃ : view c₃.mem = apply (view c₂.mem) ⟨outs.2.toNat, u32Bytes size⟩ := put_view c₂ _ _
    have h₂ : view c₂.mem = apply (view c₁.mem) ⟨outs.1.toNat, u32Bytes p.toNat⟩ := put_view c₁ _ _
    rw [h₃, h₂, hc₁, put_view]
    rfl
  constructor
  · rintro ⟨hret, hw⟩
    have harea := hwrites.mp hw
    have hr := hret _ rfl
    have hall := holds_all_iff [⟨p.toNat, block⟩, ⟨outs.1.toNat, u32Bytes p.toNat⟩,
      ⟨outs.2.toNat, u32Bytes size⟩] (view c.mem)
    rw [← hview harea] at hall
    have hlast : Holds (view c₃.mem) ⟨outs.2.toNat, u32Bytes size⟩ := by
      rw [hview harea]
      exact holds_apply_self _ _
    have hsize : size % 2 ^ 32 = block.length := by
      have heq := u32Bytes_inj (word_of_agree (agree_of_holds hlast hr.len))
      rwa [Nat.mod_eq_of_lt hr.short] at heq
    refine ⟨harea, hr.short, hsize, hall.mp ?_⟩
    intro w hw
    simp only [List.mem_cons, List.not_mem_nil, or_false] at hw
    rcases hw with rfl | rfl | rfl
    · exact hr.bytes
    · exact hr.ptr
    · exact hlast
  · rintro ⟨harea, hshort, hlen, hagree⟩
    refine ⟨?_, hwrites.mpr harea⟩
    have hall := (holds_all_iff _ (view c.mem)).mpr hagree
    rw [← hview harea] at hall
    intro b hb
    obtain rfl : b = ⟨p, block⟩ := by
      simpa using hb.symm
    constructor
    · exact hall _ (by simp)
    · exact hshort
    · rw [← hlen, u32Bytes_mod]
      exact hall _ (by simp)
    · exact hin hlen
    · exact hall _ (by simp)

/-- The out-pointers first, then what the copy makes of the block. -/
theorem early_sound_iff {c c' : Call} {outs : BitVec 32 × BitVec 32} {area : ℕ} {p : BitVec 32}
    {block copied : Bytes} (hfresh : ∀ w ∈ c.writes, w.1 = w.2)
    (hcopy : block.length < 2 ^ 32 →
      Copied ((c.put ⟨area, outs.1.toNat⟩ (u32Bytes p.toNat)).put ⟨area, outs.2.toNat⟩
        (u32Bytes block.length)) p.toNat copied c') :
    Sound outs (.ok (some ⟨p, block⟩), c') ↔
      c.mem.base = area ∧ Consistent outs p block.length block copied ∧
        Filled c.mem outs p block.length block copied := by
  set c₁ := c.put ⟨area, outs.1.toNat⟩ (u32Bytes p.toNat) with hc₁
  set c₂ := c₁.put ⟨area, outs.2.toNat⟩ (u32Bytes block.length) with hc₂
  have harea : block.length < 2 ^ 32 → (∀ w ∈ c'.writes, w.1 = w.2) → c.mem.base = area := by
    intro hshort h
    obtain ⟨l, hl, -⟩ := (hcopy hshort).writes
    have hmem : (area, c.mem.base) ∈ c'.writes := by
      rw [hl]
      simp [hc₂, hc₁, Call.put]
    exact (h _ hmem).symm
  have hwrites : block.length < 2 ^ 32 → c.mem.base = area → ∀ w ∈ c'.writes, w.1 = w.2 := by
    rintro hshort rfl w hw
    obtain ⟨l, hl, hnew⟩ := (hcopy hshort).writes
    have hlist : c₂.writes = c.writes ++ [(c.mem.base, c.mem.base)] ++ [(c.mem.base, c.mem.base)] :=
      rfl
    rw [hl, hlist] at hw
    simp only [List.mem_append, List.mem_singleton] at hw
    rcases hw with ((hw | rfl) | rfl) | hw
    · exact hfresh w hw
    · rfl
    · rfl
    · exact hnew w hw
  have hview : block.length < 2 ^ 32 → c.mem.base = area →
      view c'.mem = [⟨outs.1.toNat, u32Bytes p.toNat⟩, ⟨outs.2.toNat, u32Bytes block.length⟩,
        ⟨p.toNat, copied⟩].foldl apply (view c.mem) := by
    rintro hshort rfl
    have h₂ : view c₂.mem = apply (view c₁.mem) ⟨outs.2.toNat, u32Bytes block.length⟩ :=
      put_view c₁ _ _
    rw [(hcopy hshort).view, h₂, hc₁, put_view]
    rfl
  have hlast : block.length < 2 ^ 32 → c.mem.base = area →
      view c'.mem = apply (withWords c.mem outs p block.length) ⟨p.toNat, copied⟩ := hview
  have hswap : [⟨outs.1.toNat, u32Bytes p.toNat⟩, ⟨outs.2.toNat, u32Bytes block.length⟩,
      ⟨p.toNat, copied⟩].Perm [⟨p.toNat, copied⟩, ⟨outs.1.toNat, u32Bytes p.toNat⟩,
        (⟨outs.2.toNat, u32Bytes block.length⟩ : Patch UInt8)] :=
    List.perm_append_singleton _ [_, _]
  have hpair := hswap.pairwise_iff fun {v w : Patch UInt8} (h : Agree v w) => agree_symm h
  constructor
  · rintro ⟨hret, hw⟩
    have hr := hret _ rfl
    have hshort : block.length < 2 ^ 32 := hr.short
    have hbytes := hr.bytes
    rw [hlast hshort (harea hshort hw), holds_apply_iff] at hbytes
    have hsize : c'.mem.size = c.mem.size := (hcopy hshort).size
    refine ⟨harea hshort hw, ⟨hshort, Nat.mod_eq_of_lt hshort, hpair.mp ?_⟩,
      ⟨hsize ▸ hr.inside, hbytes.1, hbytes.2⟩⟩
    have hall := holds_all_iff [⟨outs.1.toNat, u32Bytes p.toNat⟩,
      ⟨outs.2.toNat, u32Bytes block.length⟩, ⟨p.toNat, copied⟩] (view c.mem)
    rw [← hview hshort (harea hshort hw)] at hall
    apply hall.mp
    intro w hw'
    simp only [List.mem_cons, List.not_mem_nil, or_false] at hw'
    rcases hw' with rfl | rfl | rfl
    · exact hr.ptr
    · exact hr.len
    · rw [hview hshort (harea hshort hw)]
      exact holds_apply_self _ _
  · rintro ⟨ha, ⟨hshort, -, hagree⟩, hfilled⟩
    refine ⟨?_, hwrites hshort ha⟩
    have hall := (holds_all_iff _ (view c.mem)).mpr (hpair.mpr hagree)
    rw [← hview hshort ha] at hall
    have hsize : c'.mem.size = c.mem.size := (hcopy hshort).size
    intro b hb
    obtain rfl : b = ⟨p, block⟩ := by
      simpa using hb.symm
    constructor
    · exact hall _ (by simp)
    · exact hshort
    · exact hall _ (by simp)
    · rw [hsize]
      exact hfilled.inside
    · rw [hlast hshort ha]
      exact holds_apply_iff.mpr ⟨hfilled.agree, hfilled.behind⟩

/-- What the copy loop copies from each buffer it visits. -/
def pieces (maxLen : ℕ) : List Buf → ℕ → List Bytes
  | [], _ => []
  | b :: bufs, len =>
    let len := len + b.data.length
    let chunkLen := if maxLen < len then b.data.length - (len - maxLen) else b.data.length
    let len := if maxLen < len then 0 else len
    if b.last then [b.data.take chunkLen]
    else b.data.take chunkLen :: pieces maxLen bufs len

/-- The bound check on one piece after the other. -/
def PiecesFit (mem : Memory) : BitVec 32 → List Bytes → Prop
  | _, [] => True
  | p, x :: xs =>
    (x = [] ∨ Within mem p (x.length % 2 ^ 32)) ∧
      PiecesFit mem (p + BitVec.ofNat 32 x.length) xs

theorem fits_congr {mem mem' : Memory} (h : mem'.size = mem.size) (p : BitVec 32) (n : ℕ) :
    Within mem' p n ↔ Within mem p n := by
  unfold Within
  rw [h]

theorem piecesFit_congr {mem mem' : Memory} (h : mem'.size = mem.size) (xs : List Bytes) :
    ∀ p, PiecesFit mem' p xs ↔ PiecesFit mem p xs := by
  induction xs with
  | nil => exact fun p => Iff.rfl
  | cons x xs ih =>
    intro p
    simp only [PiecesFit, fits_congr h, ih]

/-- Behind a block that fits, the pointer has not wrapped around. -/
theorem advance_toNat {mem : Memory} {p : BitVec 32} {n : ℕ} (hp : p ≠ 0)
    (h : Within mem p (n % 2 ^ 32)) :
    (p + BitVec.ofNat 32 n).toNat = p.toNat + n % 2 ^ 32 ∧ p + BitVec.ofNat 32 n ≠ 0 := by
  unfold Within at h
  rw [if_neg hp] at h
  have hnat : (p + BitVec.ofNat 32 n).toNat = p.toNat + n % 2 ^ 32 := by
    rw [BitVec.toNat_add, BitVec.toNat_ofNat]
    omega
  refine ⟨hnat, ?_⟩
  intro hzero
  have hp' : p.toNat ≠ 0 := fun h0 => hp (BitVec.eq_of_toNat_eq h0)
  rw [hzero] at hnat
  simp only [BitVec.ofNat_eq_ofNat, BitVec.toNat_ofNat] at hnat
  omega

/-- One round of the copy loop: a piece that is not empty is copied. -/
def copyPiece (p : BitVec 32) (c : Call) (x : Bytes) : Option (BitVec 32 × Call) :=
  if x = [] then some (p, c)
  else if (c.cpymem p x).1 = 0 then none
  else some (c.cpymem p x)

theorem copyPiece_spec {c : Call} {p : BitVec 32} (hp : p ≠ 0) (x : Bytes) :
    ((copyPiece p c x).isSome ↔ x = [] ∨ Within c.mem p (x.length % 2 ^ 32)) ∧
    ∀ p' c', copyPiece p c x = some (p', c') →
      p' ≠ 0 ∧ p' = p + BitVec.ofNat 32 x.length ∧ c'.mem.size = c.mem.size ∧
      (x.length < 2 ^ 32 → p'.toNat = p.toNat + x.length ∧ Copied c p.toNat x c') := by
  unfold copyPiece
  by_cases hx : x = []
  · subst hx
    rw [if_pos rfl]
    refine ⟨by simp, ?_⟩
    rintro p' c' h
    obtain ⟨rfl, rfl⟩ : p = p' ∧ c = c' := by simpa using h
    exact ⟨hp, by simp, rfl, fun _ => ⟨by simp, copied_nil c _⟩⟩
  · obtain ⟨hsome, heq⟩ := fill_spec c x.length hp x
    simp only [hx, if_false, false_or]
    unfold Call.cpymem Call.memcpy
    cases hfill : c.fill p x.length x with
    | none =>
      rw [hfill] at hsome
      simp only [Option.isSome_none, Bool.false_eq_true, false_iff] at hsome
      exact ⟨by simpa using hsome, by simp⟩
    | some c₁ =>
      rw [hfill] at hsome
      have hfits := hsome.mp rfl
      obtain ⟨hnat, hne⟩ := advance_toNat hp hfits
      have hc₁ := heq c₁ hfill
      simp only [hne, if_false, Option.isSome_some, true_iff, Option.some.injEq, Prod.mk.injEq]
      refine ⟨hfits, ?_⟩
      rintro p' c' ⟨rfl, rfl⟩
      refine ⟨hne, rfl, by rw [hc₁]; rfl, ?_⟩
      intro hshort
      rw [Nat.mod_eq_of_lt hshort] at hnat hfits
      refine ⟨hnat, ?_⟩
      rw [hc₁]
      apply put_copied
      intro _
      unfold Within at hfits
      rw [if_neg hp] at hfits
      exact hfits.2

theorem copyChain_cons (maxLen : ℕ) (b : Buf) (bufs : List Buf) (len : ℕ) (p : BitVec 32)
    (c : Call) :
    copyChain maxLen (b :: bufs) len p c =
      (copyPiece p c (b.data.take (if maxLen < len + b.data.length then
        b.data.length - (len + b.data.length - maxLen) else b.data.length))).bind fun r =>
          if b.last then some r.2
          else copyChain maxLen bufs (if maxLen < len + b.data.length then 0
            else len + b.data.length) r.1 r.2 := by
  rw [copyChain]
  simp only
  set k := if maxLen < len + b.data.length then b.data.length - (len + b.data.length - maxLen)
    else b.data.length with hk
  have hle : k ≤ b.data.length := by
    rw [hk]
    split <;> omega
  by_cases hzero : k = 0
  · simp [hzero, copyPiece]
  · have hne : b.data.take k ≠ [] := by
      intro h
      have hlen := congrArg List.length h
      rw [List.length_take, List.length_nil] at hlen
      omega
    rw [if_neg hzero, copyPiece, if_neg hne]
    split <;> rfl

theorem copyChain_spec {maxLen : ℕ} {bufs : List Buf} :
    ∀ (len : ℕ) {p : BitVec 32} {c : Call}, p ≠ 0 →
    ((copyChain maxLen bufs len p c).isSome ↔ PiecesFit c.mem p (pieces maxLen bufs len)) ∧
    ∀ c', copyChain maxLen bufs len p c = some c' →
      (∀ x ∈ pieces maxLen bufs len, x.length < 2 ^ 32) →
      Copied c p.toNat (pieces maxLen bufs len).flatten c' := by
  induction bufs with
  | nil =>
    intro len p c hp
    refine ⟨by simp [copyChain, pieces, PiecesFit], ?_⟩
    intro c' h _
    obtain rfl : c = c' := by simpa [copyChain] using h
    exact copied_nil c _
  | cons b bufs ih =>
    intro len p c hp
    rw [copyChain_cons, pieces]
    generalize b.data.take _ = x
    obtain ⟨hsome, hspec⟩ := copyPiece_spec (c := c) hp x
    cases hpiece : copyPiece p c x with
    | none =>
      rw [hpiece] at hsome
      have hbad : ¬ (x = [] ∨ Within c.mem p (x.length % 2 ^ 32)) := by simpa using hsome
      refine ⟨?_, by simp⟩
      split <;> simp only [Option.bind_none, Option.isSome_none, Bool.false_eq_true, PiecesFit, hbad,
        false_and]
    | some r =>
      obtain ⟨p', c₁⟩ := r
      rw [hpiece] at hsome
      have hfits : x = [] ∨ Within c.mem p (x.length % 2 ^ 32) := hsome.mp rfl
      obtain ⟨hne, hp', hsize, hcopied⟩ := hspec p' c₁ hpiece
      simp only [Option.bind_some]
      cases hlast : b.last with
      | true =>
        refine ⟨by simp only [if_true, Option.isSome_some, PiecesFit, hfits, and_self], ?_⟩
        intro c' h hshort
        obtain rfl : c₁ = c' := by simpa using h
        simpa using (hcopied (hshort x (by simp))).2
      | false =>
        simp only [Bool.false_eq_true, if_false, PiecesFit, hfits, true_and]
        obtain ⟨hsome', hspec'⟩ := ih (if maxLen < len + b.data.length then 0
            else len + b.data.length) (c := c₁) hne
        rw [← hp', ← piecesFit_congr hsize]
        refine ⟨hsome', ?_⟩
        intro c' h hshort
        obtain ⟨hnat, hfirst⟩ := hcopied (hshort x (List.mem_cons_self ..))
        have hrest := hspec' c' h fun y hy => hshort y (List.mem_cons_of_mem _ hy)
        rw [hnat] at hrest
        rw [List.flatten_cons]
        exact hfirst.append hrest

/-- No piece is longer than the limit, nor than what the loop visits. -/
theorem pieces_le {maxLen : ℕ} {bufs : List Buf} :
    ∀ (len : ℕ), len ≤ maxLen → ∀ x ∈ pieces maxLen bufs len,
      x.length ≤ maxLen ∧ x.length ≤ ((visited bufs).flatMap Buf.data).length := by
  induction bufs with
  | nil =>
    intro len _ x hx
    simp [pieces] at hx
  | cons b bufs ih =>
    intro len hlen x hx
    have hhead : ∀ y, y = b.data.take (if maxLen < len + b.data.length then
        b.data.length - (len + b.data.length - maxLen) else b.data.length) →
        y.length ≤ maxLen ∧ y.length ≤ b.data.length := by
      rintro y rfl
      rw [List.length_take]
      split <;> omega
    rw [pieces] at hx
    rw [visited]
    cases hlast : b.last with
    | true =>
      rw [hlast] at hx
      simpa using hhead x (by simpa using hx)
    | false =>
      rw [hlast] at hx
      simp only [Bool.false_eq_true, if_false, List.flatMap_cons, List.length_append] at hx ⊢
      rcases List.mem_cons.mp hx with hx | hx
      · have := hhead x hx
        omega
      · have hnext : (if maxLen < len + b.data.length then 0 else len + b.data.length) ≤ maxLen := by
          split <;> omega
        have := ih _ hnext x hx
        omega

/-- What a function that has something to return goes to the allocator with. -/
structure Delivery where
  before : Call
  size : ℕ
  /-- The out-pointers are written before the block. -/
  early : Bool
  /-- What the checks before and during the copy ask of the block. -/
  fits : Memory → BitVec 32 → Prop
  block : Bytes
  copied : Bytes

def late (before : Call) (bytes : Bytes) : Delivery where
  before := before
  size := bytes.length
  early := false
  fits := fun mem p => Within mem p (bytes.length % 2 ^ 32)
  block := bytes
  copied := bytes

def latePairs (before : Call) (maxPairs : ℕ) (list : HeaderList) (extras : List Elt) : Delivery where
  before := before
  size := pairsSize list (some extras) maxPairs
  early := false
  fits := fun mem p => p.toNat + pairsSize list (some extras) maxPairs ≤ mem.size ∧
    Within mem p (pairsSize list (some extras) maxPairs % 2 ^ 32)
  block := (pairsMarshal list (some extras) maxPairs).1
  copied := (pairsMarshal list (some extras) maxPairs).1

/-- `len` bytes of the content `bytes`, which are copied from `start`. -/
def earlyStart (before : Call) (start bytes : Bytes) (len : ℕ) : Delivery where
  before := before
  size := len
  early := true
  fits := fun mem p => Within mem p ((start.take len).length % 2 ^ 32)
  block := bytes.take len
  copied := start.take len

def earlyChain (before : Call) (bufs : List Buf) (bytes : Bytes) (maxLen : ℕ) : Delivery where
  before := before
  size := min bytes.length maxLen
  early := true
  fits := fun mem p => PiecesFit mem p (pieces maxLen bufs 0)
  block := bytes.take (min bytes.length maxLen)
  copied := (pieces maxLen bufs 0).flatten

/-- The length `get_buffer` allocates, where it gets that far. -/
def bufferLen (args : ℕ → BitVec 32) (source : Source) : Option ℕ :=
  let offset := ((args 1).signExtend 64).toNat
  let len := min source.bytes.length ((args 2).signExtend 64).toNat
  if (offset + len) % 2 ^ 64 < offset ∨ len = 0 then none else some len

def delivery (mem : Memory) : DataCall → Option Delivery
  | .getHeaderMapValue args mapsGet _ => do
    let key ← hostLiftSlice mem (args 1) (.arg (args 2))
    let _ ← hostLift mem (args 3)
    let _ ← hostLift mem (args 4)
    let value ← mapsGet key
    some (late (enter mem) value)
  | .getHeaderMapPairs args getAll maxPairs => do
    let _ ← hostLift mem (args 1)
    let _ ← hostLift mem (args 2)
    let (list, extras) ← getAll
    some (latePairs (enter mem) maxPairs list extras)
  | .getBuffer args source => do
    let _ ← hostLift mem (args 3)
    let _ ← hostLift mem (args 4)
    let len ← bufferLen args source
    match source.start with
    | some start => some (earlyStart (enter mem) start source.bytes len)
    | none =>
      some (earlyChain (enter mem) source.bufs source.bytes ((args 2).signExtend 64).toNat)
  | .getProperty args propertiesGet => do
    let path ← hostLiftSlice mem (args 0) (.arg (args 1))
    let _ ← hostLift mem (args 2)
    let _ ← hostLift mem (args 3)
    match propertiesGet path with
    | .ok value => some (late (enter mem) value)
    | _ => none
  | .getSharedData args kvGet => do
    let key ← hostLiftSlice mem (args 0) (.arg (args 1))
    let _ ← hostLift mem (args 2)
    let _ ← hostLift mem (args 3)
    let cas ← hostLift mem (args 4)
    match kvGet key with
    | .ok value n => some (late ((enter mem).put cas (u32Bytes n)) value)
    | _ => none
  | .dequeueSharedQueue args pop => do
    let _ ← hostLift mem (args 1)
    let _ ← hostLift mem (args 2)
    match pop with
    | .message data => if data.length = 0 then none else some (late (enter mem) data)
    | _ => none
  | .getConfiguration args config => do
    let _ ← hostLift mem (args 0)
    let _ ← hostLift mem (args 1)
    if config.length = 0 then none else some (late (enter mem) config)

/-- The guest's allocator answered without moving the memory, and with a block
that does not clash with the out-pointers and is filled by the copy. Nothing is
asked of a failed allocation, nor of a block outside the memory. -/
def Sane (outs : BitVec 32 × BitVec 32) (guest : Allocator) (d : Delivery) : Prop :=
  ∀ p, (guest d.before.mem (BitVec.ofNat 32 d.size)).1 = some p → p ≠ 0 →
    (d.early = true →
      (guest d.before.mem (BitVec.ofNat 32 d.size)).2.base = d.before.mem.base) ∧
    (d.fits (guest d.before.mem (BitVec.ofNat 32 d.size)).2 p →
      (guest d.before.mem (BitVec.ofNat 32 d.size)).2.base = d.before.mem.base ∧
      Consistent outs p d.size d.block d.copied ∧
      (d.early = true → Filled (guest d.before.mem (BitVec.ofNat 32 d.size)).2 outs p d.size d.block
        d.copied))

theorem hostLift_eq {mem : Memory} {p : BitVec 32} {q : HostPtr} (h : hostLift mem p = some q) :
    q = ⟨mem.base, p.toNat⟩ := by
  unfold hostLift at h
  cases hl : memoryLift mem p 4 4 with
  | bad =>
    rw [hl] at h
    cases h
  | null =>
    rw [hl] at h
    cases h
  | «at» q' =>
    rw [hl] at h
    cases h
    exact lift_at hl

/-- An answer without a block, all writes of which went to the memory. -/
theorem sound_of_no_block {outs : BitVec 32 × BitVec 32} {a : Answer} {c : Call}
    (ha : ∀ b, a ≠ .ok (some b)) (hc : ∀ w ∈ c.writes, w.1 = w.2) : Sound outs (a, c) :=
  ⟨fun b hb => absurd hb (ha b), hc⟩

theorem returnBlock_sound_iff {guest : Allocator} {c : Call} {outs : BitVec 32 × BitVec 32}
    {bytes : Bytes} {nomem bad : Answer} (hfresh : ∀ w ∈ c.writes, w.1 = w.2)
    (hnomem : ∀ b, nomem ≠ .ok (some b)) (hbad : ∀ b, bad ≠ .ok (some b)) :
    Sound outs (returnBlock guest c ⟨c.mem.base, outs.1.toNat⟩ ⟨c.mem.base, outs.2.toNat⟩ bytes
      nomem bad) ↔ Sane outs guest (late c bytes) := by
  unfold returnBlock proxyWasmAlloc Sane late
  simp only [Bool.false_eq_true, false_implies, true_and, and_true]
  generalize guest c.mem (BitVec.ofNat 32 bytes.length) = answer
  obtain ⟨p?, mem⟩ := answer
  cases p? with
  | none =>
    have hnone : Sound outs (nomem, { c with mem }) := sound_of_no_block hnomem hfresh
    simpa using hnone
  | some p =>
    simp only [Option.getD_some, Option.some.injEq, forall_eq']
    by_cases hp : p = 0
    · simp only [hp, if_true, ne_eq, not_true_eq_false, false_implies, iff_true]
      exact sound_of_no_block hnomem hfresh
    · simp only [hp, if_false, ne_eq, not_false_eq_true, true_implies]
      set c₁ : Call := { c with mem } with hc₁
      obtain ⟨hsome, heq⟩ := fill_spec c₁ bytes.length hp bytes
      unfold Call.memcpy
      cases hfill : c₁.fill p bytes.length bytes with
      | none =>
        rw [hfill] at hsome
        have hout : ¬ Within mem p (bytes.length % 2 ^ 32) := by simpa using hsome
        simp only [hout, false_implies, iff_true]
        exact sound_of_no_block hbad hfresh
      | some c₂ =>
        rw [hfill] at hsome
        have hfits : Within mem p (bytes.length % 2 ^ 32) := hsome.mp rfl
        simp only [hfits, true_implies]
        rw [heq c₂ hfill]
        apply late_sound_iff (c := c₁) hfresh
        intro hlen
        rw [hlen] at hfits
        unfold Within at hfits
        rw [if_neg hp] at hfits
        exact hfits.2

/-- What the copy of a buffer does, for either kind of source. -/
structure CopySpec (copy : BitVec 32 → Call → Option Call) (d : Delivery) : Prop where
  size : d.size = d.block.length
  early : d.early = true
  passes : ∀ p c, p ≠ 0 → ((copy p c).isSome ↔ d.fits c.mem p)
  congr : ∀ m m' p, m'.size = m.size → (d.fits m' p ↔ d.fits m p)
  copied : ∀ p c c', p ≠ 0 → d.block.length < 2 ^ 32 → copy p c = some c' →
    Copied c p.toNat d.copied c'

theorem early_return_sound_iff {guest : Allocator} {outs : BitVec 32 × BitVec 32} {d : Delivery}
    {copy : BitVec 32 → Call → Option Call} (hfresh : ∀ w ∈ d.before.writes, w.1 = w.2)
    (hcopy : CopySpec copy d) :
    Sound outs
      (let (p, c) := proxyWasmAlloc guest d.before d.size
        if p = 0 then (.failed .internalFailure, c)
        else
          let c := c.put ⟨d.before.mem.base, outs.1.toNat⟩ (u32Bytes p.toNat)
          let c := c.put ⟨d.before.mem.base, outs.2.toNat⟩ (u32Bytes d.size)
          match copy p c with
          | none => (.failed .invalidMemAccess, c)
          | some c => (.ok (some ⟨p, d.block⟩), c)) ↔ Sane outs guest d := by
  unfold proxyWasmAlloc Sane
  generalize guest d.before.mem (BitVec.ofNat 32 d.size) = answer
  obtain ⟨p?, mem⟩ := answer
  cases p? with
  | none =>
    have hnone : Sound outs (.failed .internalFailure, { d.before with mem }) :=
      sound_of_no_block (by simp) hfresh
    simpa using hnone
  | some p =>
    simp only [Option.getD_some, Option.some.injEq, forall_eq', hcopy.early, true_implies]
    by_cases hp : p = 0
    · simp only [hp, if_true, ne_eq, not_true_eq_false, false_implies, iff_true]
      exact sound_of_no_block (by simp) hfresh
    · simp only [hp, if_false, ne_eq, not_false_eq_true, true_implies]
      set c : Call := { d.before with mem } with hc
      set c₂ := (c.put ⟨d.before.mem.base, outs.1.toNat⟩ (u32Bytes p.toNat)).put
        ⟨d.before.mem.base, outs.2.toNat⟩ (u32Bytes d.size) with hc₂
      have hsome := hcopy.passes p c₂ hp
      have hcongr : d.fits c₂.mem p ↔ d.fits mem p := hcopy.congr _ _ _ rfl
      rw [hcongr] at hsome
      cases hdone : copy p c₂ with
      | none =>
        rw [hdone] at hsome
        have hout : ¬ d.fits mem p := by simpa using hsome
        simp only [hout, false_implies, and_true]
        have hlist : c₂.writes =
            d.before.writes ++ [(d.before.mem.base, mem.base)] ++ [(d.before.mem.base, mem.base)] :=
          rfl
        constructor
        · intro h
          exact (h.2 (d.before.mem.base, mem.base) (by simp [hlist])).symm
        · intro h
          apply sound_of_no_block (by simp)
          intro w hw
          rw [hlist, h] at hw
          simp only [List.mem_append, List.mem_singleton] at hw
          rcases hw with (hw | rfl) | rfl
          · exact hfresh w hw
          all_goals rfl
      | some c' =>
        rw [hdone] at hsome
        have hfits : d.fits mem p := hsome.mp rfl
        simp only [hfits, true_implies]
        have hspec : d.block.length < 2 ^ 32 → Copied c₂ p.toNat d.copied c' :=
          fun hshort => hcopy.copied p c₂ c' hp hshort hdone
        rw [hc₂, hcopy.size] at hspec
        have hiff : Sound outs (.ok (some ⟨p, d.block⟩), c') ↔ c.mem.base = d.before.mem.base ∧
            Consistent outs p d.block.length d.block d.copied ∧
              Filled c.mem outs p d.block.length d.block d.copied := early_sound_iff hfresh hspec
        rw [hiff, hcopy.size]
        exact ⟨fun h => ⟨h.1, h⟩, fun h => h.2⟩

theorem start_copySpec {mem : Memory} {start bytes : Bytes} {len : ℕ}
    (hsame : start.length = bytes.length) (hle : len ≤ bytes.length) :
    CopySpec (fun p c => c.memcpy p (start.take len)) (earlyStart (enter mem) start bytes len) where
  size := by simp [earlyStart, hle]
  early := rfl
  passes := fun p c hp => (fill_spec c _ hp _).1
  congr := fun m m' p h => fits_congr h p _
  copied := by
    intro p c c' hp hshort hdone
    obtain ⟨hsome, heq⟩ := fill_spec c (start.take len).length hp (start.take len)
    rw [heq c' hdone]
    apply put_copied
    intro _
    have hfits := hsome.mp (Option.isSome_of_eq_some hdone)
    have hlt : (start.take len).length < 2 ^ 32 := by
      simp only [earlyStart, List.length_take] at hshort ⊢
      omega
    rw [Nat.mod_eq_of_lt hlt] at hfits
    unfold Within at hfits
    rw [if_neg hp] at hfits
    exact hfits.2

theorem chain_copySpec {mem : Memory} {bufs : List Buf} {bytes : Bytes} {maxLen : ℕ}
    (hle : ((visited bufs).flatMap Buf.data).length ≤ bytes.length) :
    CopySpec (fun p c => copyChain maxLen bufs 0 p c) (earlyChain (enter mem) bufs bytes maxLen) where
  size := by simp [earlyChain]
  early := rfl
  passes := fun p c hp => (copyChain_spec 0 hp).1
  congr := fun m m' p h => piecesFit_congr h _ p
  copied := by
    intro p c c' hp hshort hdone
    apply (copyChain_spec 0 hp).2 c' hdone
    intro x hx
    have hpiece := pieces_le 0 (Nat.zero_le maxLen) x hx
    simp only [earlyChain, List.length_take] at hshort
    omega

theorem data_le_bytes (b : Buf) : b.data.length ≤ b.bytes.length := by
  unfold Buf.bytes
  cases hf : b.file with
  | none => exact Nat.le_refl _
  | some f =>
    rcases b.range f hf with hnil | hlen
    · rw [hnil]
      exact Nat.zero_le _
    · exact hlen.le

theorem visited_le (bufs : List Buf) :
    ((visited bufs).flatMap Buf.data).length ≤ ((visited bufs).flatMap Buf.bytes).length := by
  induction visited bufs with
  | nil => exact Nat.le_refl _
  | cons b bs ih =>
    have hb := data_le_bytes b
    simp only [List.flatMap_cons, List.length_append]
    omega

theorem start_none_le {source : Source} (h : source.start = none) :
    ((visited source.bufs).flatMap Buf.data).length ≤ source.bytes.length := by
  cases source with
  | plain bytes => cases h
  | failed answer => exact Nat.le_refl _
  | chain first rest => exact visited_le _

theorem start_length {source : Source} {start : Bytes} (h : source.start = some start) :
    start.length = source.bytes.length := by
  cases source with
  | failed answer => cases h
  | plain bytes => rw [← Option.some.inj h, Source.bytes]
  | chain first rest =>
    cases rest with
    | cons second rest => cases h
    | nil =>
      have hbytes : (Source.chain first []).bytes = first.bytes := by
        simp [Source.bytes, Source.bufs, visited]
      rw [hbytes]
      simp only [Source.start, Buf.pos] at h
      split at h
      · cases h
      · next hpos =>
        rw [← Option.some.inj h, Buf.bytes]
        cases hf : first.file with
        | none => rfl
        | some f =>
          refine (first.range f hf).resolve_left fun hnil => hpos ⟨?_, hnil⟩
          rw [hf]
          rfl

theorem enter_fresh (mem : Memory) : ∀ w ∈ (enter mem).writes, w.1 = w.2 := by
  simp [enter]

theorem put_fresh {c : Call} {q : HostPtr} (hc : ∀ w ∈ c.writes, w.1 = w.2)
    (hq : q.area = c.mem.base) (bytes : Bytes) : ∀ w ∈ (c.put q bytes).writes, w.1 = w.2 := by
  intro w hw
  simp only [Call.put, List.mem_append, List.mem_singleton] at hw
  rcases hw with hw | rfl
  · exact hc w hw
  · exact hq

theorem hostLift_area {mem : Memory} {p : BitVec 32} {q : HostPtr} (h : hostLift mem p = some q) :
    q.area = mem.base := by
  rw [hostLift_eq h]

/-- Where there is nothing to deliver. -/
theorem nothing_sound_iff {outs : BitVec 32 × BitVec 32} {guest : Allocator} {a : Answer} {c : Call}
    (ha : ∀ b, a ≠ .ok (some b)) (hc : ∀ w ∈ c.writes, w.1 = w.2) :
    Sound outs (a, c) ↔ ∀ d, (none : Option Delivery) = some d → Sane outs guest d :=
  iff_of_true (sound_of_no_block ha hc) (by simp)

theorem zero_words_agree (a b : ℕ) : Agree ⟨a, u32Bytes 0⟩ ⟨b, u32Bytes 0⟩ := by
  have hzero : ∀ (i : ℕ) (x : UInt8), (u32Bytes 0)[i]? = some x → x = 0 := by
    intro i x hx
    have hmem := List.mem_of_getElem? hx
    simpa [u32Bytes] using hmem
  intro i j x y hx hy _
  rw [hzero i x hx, hzero j y hy]

/-- The message without bytes: two words of zero and no allocation. -/
theorem empty_message_sound {mem : Memory} {outs : BitVec 32 × BitVec 32} :
    Sound outs (.ok (some ⟨0, []⟩), ((enter mem).put ⟨mem.base, outs.1.toNat⟩ (u32Bytes 0)).put
      ⟨mem.base, outs.2.toNat⟩ (u32Bytes 0)) := by
  set c := (enter mem).put ⟨mem.base, outs.1.toNat⟩ (u32Bytes 0) with hc
  have hview : view (c.put ⟨mem.base, outs.2.toNat⟩ (u32Bytes 0)).mem =
      apply (view c.mem) ⟨outs.2.toNat, u32Bytes 0⟩ := put_view c _ _
  have hfirst : Holds (view c.mem) ⟨outs.1.toNat, u32Bytes 0⟩ := by
    rw [show view c.mem = apply (view mem) ⟨outs.1.toNat, u32Bytes 0⟩ from put_view (enter mem) _ _]
    exact holds_apply_self _ _
  constructor
  · intro b hb
    obtain rfl : b = ⟨0, []⟩ := by simpa using hb.symm
    constructor
    · rw [hview]
      exact holds_apply hfirst (zero_words_agree _ _)
    · simp
    · rw [hview]
      exact holds_apply_self _ _
    · simp
    · intro i x hx
      simp at hx
  · exact put_fresh (put_fresh (enter_fresh mem) rfl _) rfl _

theorem pairs_sound_iff {guest : Allocator} {c : Call} {outs : BitVec 32 × BitVec 32}
    {maxPairs : ℕ} {list : HeaderList} {extras : List Elt} (hfresh : ∀ w ∈ c.writes, w.1 = w.2) :
    Sound outs
      (let (p, c') := proxyWasmAlloc guest c (pairsSize list (some extras) maxPairs)
        if p = 0 then (.failed .invalidMemAccess, c')
        else if c'.mem.size < p.toNat + pairsSize list (some extras) maxPairs then
          (.failed .invalidMemAccess, c')
        else
          match c'.fill p (pairsSize list (some extras) maxPairs)
            (pairsMarshal list (some extras) maxPairs).1 with
          | none => (.trapped, c')
          | some c' =>
            let c' := c'.put ⟨c.mem.base, outs.1.toNat⟩ (u32Bytes p.toNat)
            let c' := c'.put ⟨c.mem.base, outs.2.toNat⟩
              (u32Bytes (pairsSize list (some extras) maxPairs))
            (.ok (some ⟨p, (pairsMarshal list (some extras) maxPairs).1⟩), c')) ↔
      Sane outs guest (latePairs c maxPairs list extras) := by
  unfold proxyWasmAlloc Sane latePairs
  generalize pairsSize list (some extras) maxPairs = size
  generalize (pairsMarshal list (some extras) maxPairs).1 = bytes
  simp only [Bool.false_eq_true, false_implies, true_and, and_true]
  generalize guest c.mem (BitVec.ofNat 32 size) = answer
  obtain ⟨p?, mem⟩ := answer
  cases p? with
  | none =>
    have hnone : Sound outs (.failed .invalidMemAccess, { c with mem }) :=
      sound_of_no_block (by simp) hfresh
    simpa using hnone
  | some p =>
    simp only [Option.getD_some, Option.some.injEq, forall_eq']
    by_cases hp : p = 0
    · simp only [hp, if_true, ne_eq, not_true_eq_false, false_implies, iff_true]
      exact sound_of_no_block (by simp) hfresh
    · simp only [hp, if_false, ne_eq, not_false_eq_true, true_implies]
      by_cases hroom : mem.size < p.toNat + size
      · have hout : ¬ p.toNat + size ≤ mem.size := by omega
        simp only [hroom, if_true, hout, false_and, false_implies, iff_true]
        exact sound_of_no_block (by simp) hfresh
      · have hle : p.toNat + size ≤ mem.size := by omega
        simp only [hroom, if_false, hle, true_and]
        set c₁ : Call := { c with mem } with hc₁
        obtain ⟨hsome, heq⟩ := fill_spec c₁ size hp bytes
        cases hfill : c₁.fill p size bytes with
        | none =>
          rw [hfill] at hsome
          have hout : ¬ Within mem p (size % 2 ^ 32) := by simpa using hsome
          simp only [hout, false_implies, iff_true]
          exact sound_of_no_block (by simp) hfresh
        | some c₂ =>
          rw [hfill] at hsome
          have hfits : Within mem p (size % 2 ^ 32) := hsome.mp rfl
          simp only [hfits, true_implies]
          rw [heq c₂ hfill]
          apply late_sound_iff (c := c₁) hfresh
          intro hlen
          have hmod := Nat.mod_le size (2 ^ 32)
          have hsize : c₁.mem.size = mem.size := rfl
          omega

theorem buffer_sound_iff {mem : Memory} {guest : Allocator} {args : ℕ → BitVec 32}
    {source : Source} {outs : BitVec 32 × BitVec 32} :
    Sound outs (returnBuffer guest (enter mem) ⟨mem.base, outs.1.toNat⟩ ⟨mem.base, outs.2.toNat⟩
      ((args 1).signExtend 64).toNat ((args 2).signExtend 64).toNat source) ↔
      ∀ d, (bufferLen args source).bind (fun len =>
        match source.start with
        | some start => some (earlyStart (enter mem) start source.bytes len)
        | none => some (earlyChain (enter mem) source.bufs source.bytes
            ((args 2).signExtend 64).toNat)) = some d → Sane outs guest d := by
  have hfresh := enter_fresh mem
  unfold returnBuffer bufferLen
  generalize ((args 1).signExtend 64).toNat = offset
  generalize ((args 2).signExtend 64).toNat = maxLen
  simp only
  by_cases hwrap : (offset + min source.bytes.length maxLen) % 2 ^ 64 < offset
  · simp only [hwrap, if_true, true_or, Option.bind_none]
    exact nothing_sound_iff (by simp) hfresh
  · by_cases heof : min source.bytes.length maxLen = 0
    · rw [if_neg hwrap, if_pos heof, if_pos (Or.inr heof)]
      exact nothing_sound_iff (by simp) hfresh
    · simp only [hwrap, heof, if_false, or_self, Option.bind_some]
      cases hstart : source.start with
      | some start =>
        simp only [Option.some.injEq, forall_eq', copySource, hstart]
        exact early_return_sound_iff hfresh
          (start_copySpec (start_length hstart) (Nat.min_le_left _ _))
      | none =>
        simp only [Option.some.injEq, forall_eq', copySource, hstart]
        exact early_return_sound_iff hfresh (chain_copySpec (start_none_le hstart))

/-! ### The calls -/

/-- What a call returns is sound exactly if the delivery is sane. -/
def SoundIff (mem : Memory) (guest : Allocator) (call : DataCall) : Prop :=
  Sound call.outPtrs (call.run mem guest) ↔
    ∀ d, delivery mem call = some d → Sane call.outPtrs guest d

section
variable (mem : Memory) (guest : Allocator) (args : ℕ → BitVec 32)

theorem getHeaderMapValue_sound_iff (mapsGet : Slice → Option Bytes) (abi010 : Bool) :
    SoundIff mem guest (.getHeaderMapValue args mapsGet abi010) := by
  have hfresh := enter_fresh mem
  simp only [SoundIff, DataCall.run, getHeaderMapValue, DataCall.outPtrs, delivery]
  cases hkey : hostLiftSlice mem (args 1) (.arg (args 2)) with
  | none => exact nothing_sound_iff (by simp) hfresh
  | some key =>
    cases hbuf : hostLift mem (args 3) with
    | none => exact nothing_sound_iff (by simp) hfresh
    | some rbuf =>
      cases hlen : hostLift mem (args 4) with
      | none => exact nothing_sound_iff (by simp) hfresh
      | some rlen =>
        simp only [Option.bind_eq_bind, Option.bind_some]
        cases mapsGet key with
        | none =>
          cases abi010
          · exact nothing_sound_iff (by simp) hfresh
          · exact nothing_sound_iff (by simp) (put_fresh hfresh (hostLift_area hlen) _)
        | some value =>
          simp only [Option.bind_some, Option.some.injEq, forall_eq']
          rw [hostLift_eq hbuf, hostLift_eq hlen]
          exact returnBlock_sound_iff hfresh (by simp) (by simp)

theorem getHeaderMapPairs_sound_iff (getAll : Option (HeaderList × List Elt)) (maxPairs : ℕ) :
    SoundIff mem guest (.getHeaderMapPairs args getAll maxPairs) := by
  have hfresh := enter_fresh mem
  simp only [SoundIff, DataCall.run, getHeaderMapPairs, DataCall.outPtrs, delivery]
  cases hbuf : hostLift mem (args 1) with
  | none => exact nothing_sound_iff (by simp) hfresh
  | some rbuf =>
    cases hlen : hostLift mem (args 2) with
    | none => exact nothing_sound_iff (by simp) hfresh
    | some rlen =>
      cases getAll with
      | none => exact nothing_sound_iff (by simp) hfresh
      | some maps =>
        obtain ⟨list, extras⟩ := maps
        simp only [Option.bind_eq_bind, Option.bind_some, Option.some.injEq, forall_eq']
        rw [hostLift_eq hbuf, hostLift_eq hlen]
        exact pairs_sound_iff hfresh

theorem getBuffer_sound_iff (source : Source) :
    SoundIff mem guest (.getBuffer args source) := by
  have hfresh := enter_fresh mem
  simp only [SoundIff, DataCall.run, getBuffer, DataCall.outPtrs, delivery]
  cases hbuf : hostLift mem (args 3) with
  | none => exact nothing_sound_iff (by simp) hfresh
  | some rbuf =>
    cases hlen : hostLift mem (args 4) with
    | none => exact nothing_sound_iff (by simp) hfresh
    | some rlen =>
      simp only [Option.bind_eq_bind, Option.bind_some]
      rw [hostLift_eq hbuf, hostLift_eq hlen]
      cases source with
      | failed answer =>
        have hnone : bufferLen args (.failed answer) = none := by
          simp [bufferLen, Source.bytes, Source.bufs, visited]
        rw [hnone]
        cases answer <;> exact nothing_sound_iff (by simp) hfresh
      | plain bytes => exact buffer_sound_iff
      | chain first rest => exact buffer_sound_iff

theorem getProperty_sound_iff (propertiesGet : Slice → Property) :
    SoundIff mem guest (.getProperty args propertiesGet) := by
  have hfresh := enter_fresh mem
  simp only [SoundIff, DataCall.run, getProperty, DataCall.outPtrs, delivery]
  cases hpath : hostLiftSlice mem (args 0) (.arg (args 1)) with
  | none => exact nothing_sound_iff (by simp) hfresh
  | some path =>
    cases hdata : hostLift mem (args 2) with
    | none => exact nothing_sound_iff (by simp) hfresh
    | some retData =>
      cases hsize : hostLift mem (args 3) with
      | none => exact nothing_sound_iff (by simp) hfresh
      | some retSize =>
        simp only [Option.bind_eq_bind, Option.bind_some]
        cases propertiesGet path with
        | declined => exact nothing_sound_iff (by simp) hfresh
        | error trap => cases trap <;> exact nothing_sound_iff (by simp) hfresh
        | ok value =>
          simp only [Option.some.injEq, forall_eq']
          rw [hostLift_eq hdata, hostLift_eq hsize]
          exact returnBlock_sound_iff hfresh (by simp) (by simp)

theorem getSharedData_sound_iff (kvGet : Slice → Shared) :
    SoundIff mem guest (.getSharedData args kvGet) := by
  have hfresh := enter_fresh mem
  simp only [SoundIff, DataCall.run, getSharedData, DataCall.outPtrs, delivery]
  cases hkey : hostLiftSlice mem (args 0) (.arg (args 1)) with
  | none => exact nothing_sound_iff (by simp) hfresh
  | some key =>
    cases hdata : hostLift mem (args 2) with
    | none => exact nothing_sound_iff (by simp) hfresh
    | some valueData =>
      cases hsize : hostLift mem (args 3) with
      | none => exact nothing_sound_iff (by simp) hfresh
      | some valueSize =>
        cases hcas : hostLift mem (args 4) with
        | none => exact nothing_sound_iff (by simp) hfresh
        | some cas =>
          simp only [Option.bind_eq_bind, Option.bind_some]
          cases kvGet key with
          | unresolved => exact nothing_sound_iff (by simp) hfresh
          | declined => exact nothing_sound_iff (by simp) hfresh
          | ok value n =>
            simp only [Option.some.injEq, forall_eq']
            rw [hostLift_eq hdata, hostLift_eq hsize]
            have hput := put_fresh hfresh (hostLift_area hcas) (u32Bytes n)
            exact returnBlock_sound_iff hput (by simp) (by simp)

theorem dequeueSharedQueue_sound_iff (pop : Pop) :
    SoundIff mem guest (.dequeueSharedQueue args pop) := by
  have hfresh := enter_fresh mem
  simp only [SoundIff, DataCall.run, dequeueSharedQueue, DataCall.outPtrs, delivery]
  cases hptr : hostLift mem (args 1) with
  | none => exact nothing_sound_iff (by simp) hfresh
  | some wasmDataPtr =>
    cases hsize : hostLift mem (args 2) with
    | none => exact nothing_sound_iff (by simp) hfresh
    | some wasmDataSize =>
      simp only [Option.bind_eq_bind, Option.bind_some]
      cases pop with
      | unresolved => exact nothing_sound_iff (by simp) hfresh
      | empty => exact nothing_sound_iff (by simp) hfresh
      | message data =>
        by_cases hempty : data.length = 0
        · simp only [hempty, if_true]
          rw [hostLift_eq hptr, hostLift_eq hsize]
          exact iff_of_true empty_message_sound (by simp)
        · simp only [hempty, if_false, Option.some.injEq, forall_eq']
          rw [hostLift_eq hptr, hostLift_eq hsize]
          exact returnBlock_sound_iff hfresh (by simp) (by simp)

theorem getConfiguration_sound_iff (config : Bytes) :
    SoundIff mem guest (.getConfiguration args config) := by
  have hfresh := enter_fresh mem
  simp only [SoundIff, DataCall.run, getConfiguration, DataCall.outPtrs, delivery]
  cases hbuf : hostLift mem (args 0) with
  | none => exact nothing_sound_iff (by simp) hfresh
  | some rbuf =>
    cases hlen : hostLift mem (args 1) with
    | none => exact nothing_sound_iff (by simp) hfresh
    | some rlen =>
      simp only [Option.bind_eq_bind, Option.bind_some]
      by_cases hempty : config.length = 0
      · simp only [hempty, if_true]
        exact nothing_sound_iff (by simp) hfresh
      · simp only [hempty, if_false, Option.some.injEq, forall_eq']
        rw [hostLift_eq hbuf, hostLift_eq hlen]
        exact returnBlock_sound_iff hfresh (by simp) (by simp)

end

/-- Whatever a host function returns to the guest is where the guest asked for it,
and no write goes astray, exactly when the allocator it called on the way was
sane. -/
theorem returned_data_sound_iff (call : DataCall) (mem : Memory) (guest : Allocator) :
    Sound call.outPtrs (call.run mem guest) ↔
      ∀ d, delivery mem call = some d → Sane call.outPtrs guest d := by
  cases call with
  | getHeaderMapValue args mapsGet abi010 =>
    exact getHeaderMapValue_sound_iff mem guest args mapsGet abi010
  | getHeaderMapPairs args getAll maxPairs =>
    exact getHeaderMapPairs_sound_iff mem guest args getAll maxPairs
  | getBuffer args source => exact getBuffer_sound_iff mem guest args source
  | getProperty args propertiesGet => exact getProperty_sound_iff mem guest args propertiesGet
  | getSharedData args kvGet => exact getSharedData_sound_iff mem guest args kvGet
  | dequeueSharedQueue args pop => exact dequeueSharedQueue_sound_iff mem guest args pop
  | getConfiguration args config => exact getConfiguration_sound_iff mem guest args config

/-- An allocator that grows the memory of a guest, which moves it. -/
def growing : Allocator := fun mem _ =>
  (some 2048, { mem with base := mem.base + 1, size := 2 ^ 17, bounded := by decide })

/-- A configuration of one byte: both out-pointers are written into the area the
memory has left. -/
theorem configuration_written_to_old_area :
    ∃ (mem : Memory) (args : ℕ → BitVec 32),
      (∃ b, ((DataCall.getConfiguration args [7]).run mem growing).1 = .ok (some b)) ∧
      ¬ Sound (args 0, args 1) ((DataCall.getConfiguration args [7]).run mem growing) := by
  refine ⟨⟨0, 2 ^ 16, by decide, fun _ _ => 0⟩, fun i => BitVec.ofNat 32 (1024 + 4 * i),
    ⟨_, rfl⟩, ?_⟩
  intro h
  have hold : (0, 1) ∈ [(1, 1), (0, 1), (0, 1)] := by decide
  have hsame : (0 : ℕ) = 1 := h.2 (0, 1) hold
  omega

end NgxWasm.ProxyWasm.OutPointers
