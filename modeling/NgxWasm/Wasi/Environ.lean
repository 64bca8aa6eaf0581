import NgxWasm.Wavm.LiftBounds

/-!
# The environment of a WASI guest

`ngx_wasi_preview1_host.c`: `ngx_wasi_hfuncs_environ_get` (110-144) and
`ngx_wasi_hfuncs_environ_sizes_get` (147-176). The array of addresses is checked as a slice of
as many bytes as there are strings and then written as words.
-/

namespace NgxWasm.Wasi

open NgxWasm NgxWasm.Lib NgxWasm.Wavm

/-- An entry of `environ`, without the zero byte at its end. -/
structure CString where
  text : Bytes
  noNul : (0 : UInt8) ∉ text
  /-- It is an object of the host. -/
  small : text.length + 1 < 2 ^ 64

/-- The `ngx_strlen(s) + 1` bytes of an entry. -/
def CString.bytes (s : CString) : Bytes := s.text ++ [0]

/-- A store of the host; the target is counted from NULL where there is no pointer. -/
structure Store where
  dst : Option HostPtr
  bytes : Bytes

def Memory.run (mem : Memory) (w : Store) : Memory :=
  match w.dst with
  | none => mem
  | some q => mem.store q w.bytes

inductive Errno where
  | success
  /-- `NGX_WAVM_BAD_USAGE` of a lift. -/
  | trap
  deriving Repr, DecidableEq

/-! ### The two functions -/

/-- `environ_addrs + i`. -/
def word (addrs : Option HostPtr) (i : ℕ) : Option HostPtr :=
  addrs.map fun q => ⟨q.area, q.off + 4 * i⟩

/-- The loop over `environ` from entry `i` on. -/
def environLoop (mem : Memory) (addrs : Option HostPtr) :
    List CString → ℕ → BitVec 32 → List Store × Errno
  | [], _, _ => ([], .success)
  | s :: rest, i, bufAddr =>
    let w : Store := ⟨word addrs i, u32Bytes bufAddr.toNat⟩
    let n := BitVec.ofNat 64 s.bytes.length
    match hostLiftSlice mem bufAddr (.host n) with
    | none => ([w], .trap)
    | some buf =>
      let r := environLoop mem addrs rest (i + 1) (bufAddr + n.setWidth 32)
      (w :: ⟨buf.data, s.bytes⟩ :: r.1, r.2)

/-- What is stored, in order. -/
def environGet (environ : List CString) (mem : Memory) (arg0 arg1 : BitVec 32) :
    List Store × Errno :=
  match hostLiftSlice mem arg0 (.host (BitVec.ofNat 64 environ.length)) with
  | none => ([], .trap)
  | some addrs => environLoop mem addrs.data environ 0 arg1

/-- A `uint32_t` at a host address. -/
def loadU32 (mem : Memory) (q : HostPtr) : ℕ :=
  u32Val ((List.range' q.off 4).map (mem.heap q.area))

/-- `*environ_buf_size += ngx_strlen(environ[i]) + 1` for each entry. -/
def sizesLoop (bufSize : HostPtr) : List CString → Memory → Memory
  | [], mem => mem
  | s :: rest, mem =>
    sizesLoop bufSize rest
      (mem.store bufSize (u32Bytes (loadU32 mem bufSize + s.bytes.length)))

/-- `none` for a trap of a lift. -/
def environSizesGet (environ : List CString) (mem : Memory) (arg0 arg1 : BitVec 32) :
    Option Memory :=
  match hostLift mem arg0, hostLift mem arg1 with
  | some size, some bufSize =>
    let mem := (mem.store size (u32Bytes 0)).store bufSize (u32Bytes 0)
    some ((sizesLoop bufSize environ mem).store size (u32Bytes environ.length))
  | _, _ => none

/-! ### What the guest relies on -/

def Inside (mem : Memory) (w : Store) : Prop :=
  ∃ q, w.dst = some q ∧ q.area = mem.base ∧ q.off + w.bytes.length ≤ mem.size

def WritesInside (mem : Memory) (ws : List Store) : Prop := ∀ w ∈ ws, Inside mem w

/-- The store lies in `[p, p + n)` of the guest memory. -/
def InArea (mem : Memory) (p : BitVec 32) (n : ℕ) (w : Store) : Prop :=
  ∃ q, w.dst = some q ∧ q.area = mem.base ∧ p.toNat ≤ q.off ∧
    q.off + w.bytes.length ≤ p.toNat + n

/-- The string a guest finds at an address. -/
def cstringAt (mem : Memory) (addr : ℕ) : Bytes :=
  ((List.range' addr (mem.size - addr)).map (mem.heap mem.base)).takeWhile (· ≠ 0)

/-- A call left the two sizes in two words of the guest. -/
def Reported (environ : List CString) (before : Memory) (sizes : ℕ × ℕ) : Prop :=
  ∃ p q after, p ≠ q ∧ environSizesGet environ before p q = some after ∧
    sizes = (loadU32 after ⟨after.base, p.toNat⟩, loadU32 after ⟨after.base, q.toNat⟩)

/-- Areas of the reported sizes, apart and inside the memory of the call. -/
structure Areas (mem : Memory) (a b : BitVec 32) (sizes : ℕ × ℕ) : Prop where
  array : a.toNat + 4 * sizes.1 ≤ mem.size
  buffer : b.toNat + sizes.2 ≤ mem.size
  apart : a.toNat + 4 * sizes.1 ≤ b.toNat ∨ b.toNat + sizes.2 ≤ a.toNat

/-- The call succeeds, stays in the areas, and the addresses lead to the strings. -/
structure ReadsBack (environ : List CString) (mem : Memory) (a b : BitVec 32)
    (sizes : ℕ × ℕ) : Prop where
  success : (environGet environ mem a b).2 = .success
  frame : ∀ w ∈ (environGet environ mem a b).1,
    InArea mem a (4 * sizes.1) w ∨ InArea mem b sizes.2 w
  strings : let mem' := (environGet environ mem a b).1.foldl Memory.run mem
    (List.range sizes.1).map
        (fun i => cstringAt mem' (loadU32 mem' ⟨mem.base, a.toNat + 4 * i⟩)) =
      environ.map CString.text

/-- Bytes of all strings with their zero bytes. -/
def total (environ : List CString) : ℕ := (environ.map fun s => s.bytes.length).sum

/-- The words of the array are inside the memory for all strings the loop comes to, and no
string that passes the check of its low 32 bits has more. -/
def RoomFor (mem : Memory) (a : BitVec 32) : List CString → ℕ → BitVec 32 → Prop
  | [], _, _ => True
  | s :: rest, i, buf =>
    a ≠ 0 ∧ a.toNat + 4 * (i + 1) ≤ mem.size ∧
      (Within mem buf (s.bytes.length % 2 ^ 32) →
        s.bytes.length < 2 ^ 32 ∧
          RoomFor mem a rest (i + 1) (buf + BitVec.ofNat 32 s.bytes.length))

/-- No pointer is NULL, and the end of the buffer is a `uint32_t`. -/
def SizesHold (environ : List CString) (a b : BitVec 32) : Prop :=
  environ = [] ∨ (a ≠ 0 ∧ b ≠ 0 ∧ b.toNat + total environ < 2 ^ 32)

/-! ### Lifts -/

/-- The pointer a slice is lifted to. -/
def pointer (mem : Memory) (p : BitVec 32) : Option HostPtr :=
  if p = 0 then none else some ⟨mem.base, p.toNat⟩

theorem hostLiftSlice_host (mem : Memory) (p : BitVec 32) (n : ℕ) :
    hostLiftSlice mem p (.host (BitVec.ofNat 64 n)) =
      if Within mem p (n % 2 ^ 32) then some ⟨pointer mem p, BitVec.ofNat 64 n⟩ else none := by
  have hlow : (BitVec.ofNat 64 n).setWidth 32 = BitVec.ofNat 32 n := by
    apply BitVec.eq_of_toNat_eq
    simp only [BitVec.toNat_setWidth, BitVec.toNat_ofNat]
    omega
  have hgood := lift_ne_bad_iff mem p (BitVec.ofNat 32 n)
  rw [BitVec.toNat_ofNat] at hgood
  simp only [hostLiftSlice, Length.used, hlow]
  by_cases hwithin : Within mem p (n % 2 ^ 32)
  · rw [if_pos hwithin]
    have hne := hgood.mpr hwithin
    unfold memoryLift at hne ⊢
    by_cases hp : p = 0
    · rw [if_pos hp] at hne ⊢
      split at hne
      · exact absurd rfl hne
      · rename_i hsize
        simp only [hsize, if_false, pointer, if_pos hp]
    · rw [if_neg hp] at hne ⊢
      split at hne
      · exact absurd rfl hne
      · rename_i hbounds
        have halign : ¬ (1 < (1 : BitVec 32) ∧ p &&& (1 - 1) ≠ 0) := by simp
        simp only [hbounds, if_false, if_neg halign, pointer, if_neg hp]
  · rw [if_neg hwithin]
    have hbad := not_not.mp (mt hgood.mp hwithin)
    rw [hbad]

theorem within_bounds {mem : Memory} {p : BitVec 32} {n : ℕ} (h : Within mem p n) (hp : p ≠ 0) :
    p.toNat + n < 2 ^ 32 ∧ p.toNat + n ≤ mem.size := by
  rwa [Within, if_neg hp] at h

theorem within_zero {mem : Memory} {n : ℕ} (h : Within mem 0 n) : n = 0 := by
  rwa [Within, if_pos rfl] at h

/-! ### Writes outside the memory -/

theorem environLoop_cons (mem : Memory) (addrs : Option HostPtr) (s : CString)
    (rest : List CString) (i : ℕ) (buf : BitVec 32) :
    environLoop mem addrs (s :: rest) i buf =
      if Within mem buf (s.bytes.length % 2 ^ 32) then
        let r := environLoop mem addrs rest (i + 1) (buf + BitVec.ofNat 32 s.bytes.length)
        (⟨word addrs i, u32Bytes buf.toNat⟩ :: ⟨pointer mem buf, s.bytes⟩ :: r.1, r.2)
      else ([⟨word addrs i, u32Bytes buf.toNat⟩], .trap) := by
  have hlow : (BitVec.ofNat 64 s.bytes.length).setWidth 32 = BitVec.ofNat 32 s.bytes.length := by
    apply BitVec.eq_of_toNat_eq
    simp only [BitVec.toNat_setWidth, BitVec.toNat_ofNat]
    omega
  simp only [environLoop, hostLiftSlice_host, hlow]
  split_ifs <;> rfl

theorem inside_pointer_iff (mem : Memory) (p : BitVec 32) (k : ℕ) (bytes : Bytes) :
    Inside mem ⟨(pointer mem p).map fun q => ⟨q.area, q.off + k⟩, bytes⟩ ↔
      p ≠ 0 ∧ p.toNat + k + bytes.length ≤ mem.size := by
  unfold pointer
  by_cases hp : p = 0
  · rw [if_pos hp]
    constructor
    · intro ⟨q, hq, _⟩
      exact absurd hq (by simp)
    · intro h
      exact absurd hp h.1
  · rw [if_neg hp]
    constructor
    · intro ⟨q, hq, _, hoff⟩
      simp only [Option.map_some, Option.some.injEq] at hq
      subst hq
      exact ⟨hp, hoff⟩
    · intro h
      exact ⟨⟨mem.base, p.toNat + k⟩, rfl, rfl, h.2⟩

/-- By induction on the strings: each round stores a word and, if its string fits, the string. -/
theorem loop_inside_iff (mem : Memory) (a : BitVec 32) (environ : List CString) :
    ∀ (i : ℕ) (buf : BitVec 32),
      WritesInside mem (environLoop mem (pointer mem a) environ i buf).1 ↔
        RoomFor mem a environ i buf := by
  induction environ with
  | nil =>
    intro i buf
    exact iff_of_true (fun w hw => absurd hw List.not_mem_nil) trivial
  | cons s rest ih =>
    intro i buf
    have hword : Inside mem ⟨word (pointer mem a) i, u32Bytes buf.toNat⟩ ↔
        a ≠ 0 ∧ a.toNat + 4 * (i + 1) ≤ mem.size := by
      rw [word, inside_pointer_iff, u32Bytes_length, Nat.add_assoc]
      exact Iff.rfl
    rw [environLoop_cons, RoomFor]
    by_cases hwithin : Within mem buf (s.bytes.length % 2 ^ 32)
    · have hstring : Inside mem ⟨pointer mem buf, s.bytes⟩ ↔ s.bytes.length < 2 ^ 32 := by
        have hmap : (pointer mem buf).map (fun q : HostPtr => (⟨q.area, q.off + 0⟩ : HostPtr)) =
            pointer mem buf := by
          cases pointer mem buf <;> rfl
        rw [← hmap, inside_pointer_iff]
        have hsize := mem.bounded
        constructor
        · intro ⟨hb, hfits⟩
          have hpos : 0 < buf.toNat := by
            have := mt (fun h => BitVec.eq_of_toNat_eq (y := 0#32) h) hb
            simp only [BitVec.toNat_ofNat, Nat.zero_mod] at this
            omega
          omega
        · intro hlt
          rw [Nat.mod_eq_of_lt hlt] at hwithin
          have hb : buf ≠ 0 := by
            intro h
            rw [h] at hwithin
            have hzero := within_zero hwithin
            simp [CString.bytes] at hzero
          have := within_bounds hwithin hb
          exact ⟨hb, by omega⟩
      rw [if_pos hwithin, WritesInside, List.forall_mem_cons, List.forall_mem_cons, hword, hstring]
      rw [← ih (i + 1) (buf + BitVec.ofNat 32 s.bytes.length)]
      constructor
      · intro ⟨⟨ha, hroom⟩, hlt, hrest⟩
        exact ⟨ha, hroom, fun _ => ⟨hlt, hrest⟩⟩
      · intro ⟨ha, hroom, hrest⟩
        exact ⟨⟨ha, hroom⟩, hrest hwithin⟩
    · rw [if_neg hwithin, WritesInside, List.forall_mem_singleton, hword]
      constructor
      · intro ⟨ha, hroom⟩
        exact ⟨ha, hroom, fun h => absurd h hwithin⟩
      · intro ⟨ha, hroom, _⟩
        exact ⟨ha, hroom⟩

/-! ### The sizes -/

@[simp] theorem store_base (mem : Memory) (q : HostPtr) (bytes : Bytes) :
    (mem.store q bytes).base = mem.base := rfl

@[simp] theorem store_size (mem : Memory) (q : HostPtr) (bytes : Bytes) :
    (mem.store q bytes).size = mem.size := rfl

theorem store_heap (mem : Memory) (q : HostPtr) (bytes : Bytes) :
    (mem.store q bytes).heap q.area = Overlay.apply (mem.heap q.area) ⟨q.off, bytes⟩ :=
  Function.update_self _ _ _

theorem u32Val_mod (n : ℕ) : u32Val (u32Bytes n) = n % 2 ^ 32 := by
  simp only [u32Bytes, u32Val, UInt8.toNat_ofNat']
  omega

/-- A word of the memory from the patch it shows. -/
theorem loadU32_of_holds {mem : Memory} {q : HostPtr} {n : ℕ}
    (h : Overlay.Holds (mem.heap q.area) ⟨q.off, u32Bytes n⟩) : loadU32 mem q = n % 2 ^ 32 := by
  have hbytes : (List.range' q.off 4).map (mem.heap q.area) = u32Bytes n := by
    have h0 := h 0 _ rfl
    have h1 := h 1 _ rfl
    have h2 := h 2 _ rfl
    have h3 := h 3 _ rfl
    simp only [Nat.add_zero] at h0 h1 h2 h3
    simp only [List.range', List.map_cons, List.map_nil, h0, h1, h2, h3, Nat.add_assoc,
      Nat.reduceAdd]
    rfl
  rw [loadU32, hbytes, u32Val_mod]

theorem loadU32_store (mem : Memory) (q : HostPtr) (n : ℕ) :
    loadU32 (mem.store q (u32Bytes n)) q = n % 2 ^ 32 := by
  apply loadU32_of_holds
  rw [store_heap]
  exact Overlay.holds_apply_self _ _

theorem loadU32_lt (mem : Memory) (q : HostPtr) : loadU32 mem q < 2 ^ 32 := by
  simp only [loadU32, List.range', List.map_cons, List.map_nil, u32Val]
  have h0 := (mem.heap q.area q.off).toNat_lt
  have h1 := (mem.heap q.area (q.off + 1)).toNat_lt
  have h2 := (mem.heap q.area (q.off + 1 + 1)).toNat_lt
  have h3 := (mem.heap q.area (q.off + 1 + 1 + 1)).toNat_lt
  omega

theorem loadU32_store_other (mem : Memory) (p q : HostPtr) (bytes : Bytes)
    (harea : p.area = q.area) (h : q.off + 4 ≤ p.off ∨ p.off + bytes.length ≤ q.off) :
    loadU32 (mem.store p bytes) q = loadU32 mem q := by
  have hsame : ∀ a ∈ List.range' q.off 4,
      (mem.store p bytes).heap q.area a = mem.heap q.area a := by
    intro a ha
    have hrange := List.mem_range'_1.mp ha
    rw [← harea, store_heap]
    apply Overlay.apply_outside
    intro j y hy heq
    obtain ⟨hj, -⟩ := List.getElem?_eq_some_iff.mp hy
    simp only at hj heq
    omega
  rw [loadU32, loadU32, List.map_congr_left hsame]

theorem sizesLoop_base (bufSize : HostPtr) (environ : List CString) :
    ∀ mem : Memory, (sizesLoop bufSize environ mem).base = mem.base := by
  induction environ with
  | nil => intro mem; rfl
  | cons s rest ih => intro mem; exact ih _

theorem sizesLoop_loads (bufSize : HostPtr) (environ : List CString) :
    ∀ mem : Memory, loadU32 (sizesLoop bufSize environ mem) bufSize =
      (loadU32 mem bufSize + total environ) % 2 ^ 32 := by
  induction environ with
  | nil =>
    intro mem
    exact (Nat.mod_eq_of_lt (loadU32_lt mem bufSize)).symm
  | cons s rest ih =>
    intro mem
    rw [sizesLoop, ih, loadU32_store]
    simp only [total, List.map_cons, List.sum_cons]
    omega

theorem hostLift_eq {mem : Memory} {p : BitVec 32} {q : HostPtr} (h : hostLift mem p = some q) :
    q = ⟨mem.base, p.toNat⟩ ∧ p.toNat % 4 = 0 := by
  unfold hostLift at h
  split at h
  · rename_i q' hlift
    unfold memoryLift at hlift
    split_ifs at hlift with _ _ _ halign
    simp only [Lifted.at.injEq] at hlift
    refine ⟨(Option.some.inj h).symm.trans hlift.symm, ?_⟩
    have hmask : p &&& 3#32 = 0#32 := by
      by_contra hne
      exact halign ⟨by decide, hne⟩
    have hnat := congrArg BitVec.toNat hmask
    simp only [BitVec.toNat_and, BitVec.toNat_ofNat, Nat.reducePow, Nat.reduceMod,
      Nat.zero_mod] at hnat
    have hthree := Nat.and_two_pow_sub_one_eq_mod p.toNat 2
    simp only [Nat.reducePow, Nat.add_one_sub_one] at hthree
    rw [← hthree]
    exact hnat
  · exact absurd h (by simp)

theorem reported_eq {environ : List CString} {before : Memory} {sizes : ℕ × ℕ}
    (h : Reported environ before sizes) :
    sizes = (environ.length % 2 ^ 32, total environ % 2 ^ 32) := by
  obtain ⟨p, q, after, hne, hcall, rfl⟩ := h
  unfold environSizesGet at hcall
  split at hcall
  · rename_i size bufSize hsize hbuf
    obtain ⟨rfl, hp⟩ := hostLift_eq hsize
    obtain ⟨rfl, hq⟩ := hostLift_eq hbuf
    have hapart : p.toNat ≠ q.toNat := fun heq => hne (BitVec.eq_of_toNat_eq heq)
    have hafter := Option.some.inj hcall
    have hbase : after.base = before.base := by
      rw [← hafter]
      exact sizesLoop_base _ _ _
    rw [hbase, ← hafter, loadU32_store, loadU32_store_other]
    · rw [sizesLoop_loads, loadU32_store]
      simp
    · rfl
    · simp only [u32Bytes_length]
      omega
  · exact absurd hcall (by simp)

/-! ### A run that succeeds -/

theorem bytes_pos (s : CString) : 0 < s.bytes.length := by
  simp [CString.bytes]

theorem total_cons (s : CString) (rest : List CString) :
    total (s :: rest) = s.bytes.length + total rest := rfl

theorem length_le_total (environ : List CString) : environ.length ≤ total environ := by
  induction environ with
  | nil => exact Nat.zero_le _
  | cons s rest ih =>
    have := bytes_pos s
    rw [total_cons, List.length_cons]
    omega

/-- The buffer address does not wrap around while strings fit. -/
theorem success_bounds {mem : Memory} {addrs : Option HostPtr} (environ : List CString) :
    ∀ (i : ℕ) (buf : BitVec 32), (environLoop mem addrs environ i buf).2 = .success →
      (∀ w ∈ (environLoop mem addrs environ i buf).1, w.bytes.length < 2 ^ 32) →
      environ = [] ∨ (buf ≠ 0 ∧ buf.toNat + total environ < 2 ^ 32) := by
  induction environ with
  | nil => intro i buf _ _; exact .inl rfl
  | cons s rest ih =>
    intro i buf hsuccess hsmall
    rw [environLoop_cons] at hsuccess hsmall
    by_cases hwithin : Within mem buf (s.bytes.length % 2 ^ 32)
    · rw [if_pos hwithin] at hsuccess hsmall
      rw [List.forall_mem_cons, List.forall_mem_cons] at hsmall
      obtain ⟨_, hlt, hrest⟩ := hsmall
      simp only at hlt
      have hpos := bytes_pos s
      rw [Nat.mod_eq_of_lt hlt] at hwithin
      have hb : buf ≠ 0 := by
        intro h
        rw [h] at hwithin
        exact absurd (within_zero hwithin) (by omega)
      have hbounds := within_bounds hwithin hb
      have hnext : (buf + BitVec.ofNat 32 s.bytes.length).toNat = buf.toNat + s.bytes.length := by
        rw [BitVec.toNat_add, BitVec.toNat_ofNat]
        omega
      right
      refine ⟨hb, ?_⟩
      rw [total_cons]
      rcases ih (i + 1) _ hsuccess hrest with hnil | ⟨-, hlast⟩
      · rw [hnil]
        simp only [total, List.map_nil, List.sum_nil]
        omega
      · rw [hnext] at hlast
        omega
    · rw [if_neg hwithin] at hsuccess
      exact Errno.noConfusion hsuccess

/-- The stores of a run whose strings all fit. -/
def layout (base a : ℕ) : List CString → ℕ → ℕ → List Store
  | [], _, _ => []
  | s :: rest, i, buf =>
    ⟨some ⟨base, a + 4 * i⟩, u32Bytes buf⟩ :: ⟨some ⟨base, buf⟩, s.bytes⟩ ::
      layout base a rest (i + 1) (buf + s.bytes.length)

theorem loop_eq_layout {mem : Memory} {a : BitVec 32} (ha : a ≠ 0) (environ : List CString) :
    ∀ (i : ℕ) (buf : BitVec 32), buf ≠ 0 → buf.toNat + total environ < 2 ^ 32 →
      buf.toNat + total environ ≤ mem.size →
      environLoop mem (pointer mem a) environ i buf =
        (layout mem.base a.toNat environ i buf.toNat, .success) := by
  induction environ with
  | nil => intro i buf _ _ _; rfl
  | cons s rest ih =>
    intro i buf hb hlt hfits
    rw [total_cons] at hlt hfits
    have hmod : s.bytes.length % 2 ^ 32 = s.bytes.length := Nat.mod_eq_of_lt (by omega)
    have hwithin : Within mem buf (s.bytes.length % 2 ^ 32) := by
      rw [hmod, Within, if_neg hb]
      omega
    have hnext : (buf + BitVec.ofNat 32 s.bytes.length).toNat = buf.toNat + s.bytes.length := by
      rw [BitVec.toNat_add, BitVec.toNat_ofNat]
      omega
    have hnonzero : buf + BitVec.ofNat 32 s.bytes.length ≠ 0 := by
      intro h
      have hzero := congrArg BitVec.toNat h
      rw [hnext] at hzero
      have hpos := bytes_pos s
      rw [show (0 : BitVec 32).toNat = 0 from rfl] at hzero
      omega
    rw [environLoop_cons, if_pos hwithin, ih (i + 1) _ hnonzero (by omega) (by omega), hnext]
    simp only [layout, word, pointer, if_neg ha, if_neg hb, Option.map_some]

/-- A store of the layout is a word of the array or a part of the buffer. -/
theorem layout_places (base a : ℕ) (environ : List CString) :
    ∀ (i buf : ℕ), ∀ w ∈ layout base a environ i buf, ∃ off, w.dst = some ⟨base, off⟩ ∧
      (a + 4 * i ≤ off ∧ off + w.bytes.length ≤ a + 4 * (i + environ.length) ∨
        buf ≤ off ∧ off + w.bytes.length ≤ buf + total environ) := by
  induction environ with
  | nil => intro i buf w hw; exact absurd hw List.not_mem_nil
  | cons s rest ih =>
    intro i buf w hw
    rw [total_cons, List.length_cons]
    rcases List.mem_cons.mp hw with rfl | hw
    · refine ⟨_, rfl, .inl ⟨Nat.le_refl _, ?_⟩⟩
      simp only [u32Bytes_length]
      omega
    rcases List.mem_cons.mp hw with rfl | hw
    · refine ⟨_, rfl, .inr ⟨Nat.le_refl _, ?_⟩⟩
      simp only
      omega
    obtain ⟨off, hdst, hplace⟩ := ih (i + 1) _ w hw
    refine ⟨off, hdst, ?_⟩
    rcases hplace with h | h
    · exact .inl (by omega)
    · exact .inr (by omega)

/-! ### Reading back -/

@[simp] theorem run_base (mem : Memory) (w : Store) : (Memory.run mem w).base = mem.base := by
  unfold Memory.run
  cases w.dst <;> rfl

@[simp] theorem run_size (mem : Memory) (w : Store) : (Memory.run mem w).size = mem.size := by
  unfold Memory.run
  cases w.dst <;> rfl

theorem foldl_run (ws : List Store) : ∀ mem : Memory,
    (ws.foldl Memory.run mem).base = mem.base ∧ (ws.foldl Memory.run mem).size = mem.size := by
  induction ws with
  | nil => intro mem; exact ⟨rfl, rfl⟩
  | cons w ws ih =>
    intro mem
    obtain ⟨hb, hs⟩ := ih (Memory.run mem w)
    rw [run_base] at hb
    rw [run_size] at hs
    exact ⟨hb, hs⟩

/-- The memory shows what was stored. -/
def Shows (mem : Memory) (w : Store) : Prop :=
  ∀ q, w.dst = some q → Overlay.Holds (mem.heap q.area) ⟨q.off, w.bytes⟩

/-- Two stores do not meet. -/
def Apart (v w : Store) : Prop :=
  ∀ p q, v.dst = some p → w.dst = some q →
    p.off + v.bytes.length ≤ q.off ∨ q.off + w.bytes.length ≤ p.off

theorem shows_run {mem : Memory} {v w : Store} (h : Shows mem v) (hapart : Apart v w) :
    Shows (Memory.run mem w) v := by
  intro p hp
  unfold Memory.run
  cases hw : w.dst with
  | none => exact h p hp
  | some q =>
    by_cases harea : p.area = q.area
    · simp only
      rw [harea, store_heap, ← harea]
      apply Overlay.holds_apply (h p hp)
      intro i j x y hx hy hij
      obtain ⟨hi, -⟩ := List.getElem?_eq_some_iff.mp hx
      obtain ⟨hj, -⟩ := List.getElem?_eq_some_iff.mp hy
      have := hapart p q hp hw
      simp only at hi hj hij
      omega
    · have hsame : (mem.store q w.bytes).heap p.area = mem.heap p.area :=
        Function.update_of_ne harea _ _
      simp only
      rw [hsame]
      exact h p hp

theorem shows_foldl {v : Store} (ws : List Store) : ∀ mem : Memory, Shows mem v →
    (∀ w ∈ ws, Apart v w) → Shows (ws.foldl Memory.run mem) v := by
  induction ws with
  | nil => intro mem h _; exact h
  | cons w ws ih =>
    intro mem h hapart
    rw [List.forall_mem_cons] at hapart
    exact ih _ (shows_run h hapart.1) hapart.2

theorem shows_self (mem : Memory) (w : Store) : Shows (Memory.run mem w) w := by
  intro q hq
  simp only [Memory.run, hq]
  rw [store_heap]
  exact Overlay.holds_apply_self _ _

/-- Stores that do not meet are all there at the end. -/
theorem shows_all (ws : List Store) : ∀ mem : Memory, ws.Pairwise Apart →
    ∀ w ∈ ws, Shows (ws.foldl Memory.run mem) w := by
  induction ws with
  | nil => intro mem _ w hw; exact absurd hw List.not_mem_nil
  | cons v ws ih =>
    intro mem hapart w hw
    rw [List.pairwise_cons] at hapart
    rcases List.mem_cons.mp hw with rfl | hw
    · exact shows_foldl ws _ (shows_self mem w) hapart.1
    · exact ih _ hapart.2 w hw

/-- Words and strings of the layout do not meet while array and buffer do not. -/
theorem layout_apart (base a : ℕ) (environ : List CString) :
    ∀ (i buf : ℕ), a + 4 * (i + environ.length) ≤ buf ∨ buf + total environ ≤ a + 4 * i →
      (layout base a environ i buf).Pairwise Apart := by
  induction environ with
  | nil => intro i buf _; exact List.Pairwise.nil
  | cons s rest ih =>
    intro i buf hareas
    rw [total_cons, List.length_cons] at hareas
    rw [layout, List.pairwise_cons, List.pairwise_cons]
    refine ⟨?_, ?_, ih (i + 1) _ (by omega)⟩
    · intro w hw p q hp hq
      simp only [Option.some.injEq] at hp
      subst hp
      rw [u32Bytes_length]
      rcases List.mem_cons.mp hw with rfl | hw
      · simp only [Option.some.injEq] at hq
        subst hq
        simp only
        omega
      · obtain ⟨off, hdst, hplace⟩ := layout_places base a rest (i + 1) _ w hw
        rw [hdst, Option.some.injEq] at hq
        subst hq
        simp only
        omega
    · intro w hw p q hp hq
      simp only [Option.some.injEq] at hp
      subst hp
      obtain ⟨off, hdst, hplace⟩ := layout_places base a rest (i + 1) _ w hw
      rw [hdst, Option.some.injEq] at hq
      subst hq
      simp only
      omega

theorem cstringAt_of_holds {mem : Memory} {buf : ℕ} {s : CString}
    (h : Overlay.Holds (mem.heap mem.base) ⟨buf, s.bytes⟩)
    (hfits : buf + s.bytes.length ≤ mem.size) : cstringAt mem buf = s.text := by
  have hinit : (List.range' buf s.bytes.length).map (mem.heap mem.base) = s.bytes := by
    apply List.ext_getElem
    · rw [List.length_map, List.length_range']
    · intro k hk hk'
      rw [List.getElem_map, List.getElem_range', Nat.one_mul]
      exact h k _ (List.getElem?_eq_getElem hk')
  have hsplit : mem.size - buf = s.bytes.length + (mem.size - buf - s.bytes.length) := by omega
  have hplain : ∀ x ∈ s.text, decide (x ≠ 0) = true := by
    intro x hx
    rw [decide_eq_true_eq]
    exact fun hzero => s.noNul (hzero ▸ hx)
  rw [cstringAt, hsplit, ← List.range'_append_1, List.map_append, hinit, CString.bytes,
    List.append_assoc, List.takeWhile_append_of_pos hplain]
  simp

/-- By induction on the strings, the stores being fixed. -/
theorem strings_of_layout {mem : Memory} (a : ℕ) (environ : List CString) :
    ∀ (i buf : ℕ), (∀ w ∈ layout mem.base a environ i buf, Shows mem w) →
      buf + total environ < 2 ^ 32 → buf + total environ ≤ mem.size →
      (List.range' i environ.length).map
          (fun i => cstringAt mem (loadU32 mem ⟨mem.base, a + 4 * i⟩)) =
        environ.map CString.text := by
  induction environ with
  | nil => intro i buf _ _ _; rfl
  | cons s rest ih =>
    intro i buf hshows hlt hfits
    rw [layout, List.forall_mem_cons, List.forall_mem_cons] at hshows
    obtain ⟨hword, hstring, hrest⟩ := hshows
    rw [total_cons] at hlt hfits
    have hload : loadU32 mem ⟨mem.base, a + 4 * i⟩ = buf := by
      rw [loadU32_of_holds (hword _ rfl), Nat.mod_eq_of_lt (by omega)]
    have hread : cstringAt mem buf = s.text :=
      cstringAt_of_holds (hstring ⟨mem.base, buf⟩ rfl) (by omega)
    rw [List.length_cons, List.range'_succ, List.map_cons, List.map_cons, hload, hread,
      ih (i + 1) _ hrest (by omega) (by omega)]

/-! ### The two calls together -/

theorem inArea_small {mem : Memory} {p : BitVec 32} {n : ℕ} {w : Store} (hn : n < 2 ^ 32)
    (h : InArea mem p n w) : w.bytes.length < 2 ^ 32 := by
  obtain ⟨q, _, _, hlow, hhigh⟩ := h
  omega

theorem toNat_pos {p : BitVec 32} (hp : p ≠ 0) : 0 < p.toNat := by
  have hne : p.toNat ≠ 0 := fun h => hp (BitVec.eq_of_toNat_eq h)
  omega

theorem environGet_eq (environ : List CString) (mem : Memory) (a b : BitVec 32) :
    environGet environ mem a b =
      if Within mem a (environ.length % 2 ^ 32) then
        environLoop mem (pointer mem a) environ 0 b
      else ([], .trap) := by
  rw [environGet, hostLiftSlice_host]
  split_ifs <;> rfl

theorem readsBack_iff {environ : List CString} {before mem : Memory} {a b : BitVec 32}
    {sizes : ℕ × ℕ} (hreported : Reported environ before sizes) (hareas : Areas mem a b sizes) :
    ReadsBack environ mem a b sizes ↔ SizesHold environ a b := by
  rw [reported_eq hreported] at hareas ⊢
  obtain ⟨harray, hbuffer, hapart⟩ := hareas
  simp only at harray hbuffer hapart
  have hbounded := mem.bounded
  constructor
  · intro ⟨hsuccess, hframe, hstrings⟩
    by_cases hnil : environ = []
    · exact .inl hnil
    right
    have hlength : environ.length % 2 ^ 32 = environ.length := by
      have := congrArg List.length hstrings
      rwa [List.length_map, List.length_map, List.length_range] at this
    have hpos : 0 < environ.length := List.length_pos_iff.mpr hnil
    rw [environGet_eq] at hsuccess hframe
    rw [hlength] at hsuccess hframe harray
    by_cases hwithin : Within mem a environ.length
    · rw [if_pos hwithin] at hsuccess hframe
      have ha : a ≠ 0 := by
        intro h
        rw [h] at hwithin
        exact absurd (within_zero hwithin) (by omega)
      have haPos := toNat_pos ha
      have hsmall : ∀ w ∈ (environLoop mem (pointer mem a) environ 0 b).1,
          w.bytes.length < 2 ^ 32 := by
        intro w hw
        rcases hframe w hw with h | h
        · exact inArea_small (by omega) h
        · exact inArea_small (Nat.mod_lt _ (by decide)) h
      rcases success_bounds environ 0 b hsuccess hsmall with h | ⟨hb, hend⟩
      · exact absurd h hnil
      · exact ⟨ha, hb, hend⟩
    · rw [if_neg hwithin] at hsuccess
      exact absurd hsuccess (by decide)
  · intro hhold
    rcases hhold with rfl | ⟨ha, hb, hend⟩
    · have hrun : environGet [] mem a b = ([], .success) ∨ environGet [] mem a b = ([], .trap) := by
        rw [environGet_eq]
        split_ifs
        · exact .inl rfl
        · exact .inr rfl
      refine ⟨?_, ?_, rfl⟩
      · rw [environGet_eq, if_pos ?_]
        · rfl
        · rw [Within]
          split
          · rfl
          · simp only [List.length_nil, Nat.zero_mod, Nat.add_zero, Nat.mul_zero] at harray ⊢
            exact ⟨a.isLt, harray⟩
      · intro w hw
        rcases hrun with h | h
        · rw [h] at hw
          exact absurd hw List.not_mem_nil
        · rw [h] at hw
          exact absurd hw List.not_mem_nil
    · have hcount := length_le_total environ
      have hbPos := toNat_pos hb
      have hlength : environ.length % 2 ^ 32 = environ.length := Nat.mod_eq_of_lt (by omega)
      have htotal : total environ % 2 ^ 32 = total environ := Nat.mod_eq_of_lt (by omega)
      rw [hlength] at harray hapart
      rw [htotal] at hbuffer hapart
      have hwithin : Within mem a (environ.length % 2 ^ 32) := by
        rw [hlength, Within, if_neg ha]
        have := toNat_pos ha
        by_cases hnil : environ.length = 0
        · rw [hnil]
          have := a.isLt
          omega
        · omega
      have hrun : environGet environ mem a b =
          (layout mem.base a.toNat environ 0 b.toNat, .success) := by
        rw [environGet_eq, if_pos hwithin, loop_eq_layout ha environ 0 b hb hend hbuffer]
      rw [hlength, htotal]
      refine ⟨by rw [hrun], ?_, ?_⟩
      · intro w hw
        rw [hrun] at hw
        obtain ⟨off, hdst, hplace⟩ := layout_places _ _ _ _ _ w hw
        rcases hplace with h | h
        · exact .inl ⟨_, hdst, rfl, by simp only; omega, by simp only; omega⟩
        · exact .inr ⟨_, hdst, rfl, h⟩
      · rw [hrun]
        simp only
        obtain ⟨hbase, hsize⟩ := foldl_run (layout mem.base a.toNat environ 0 b.toNat) mem
        rw [← hsize] at hbuffer
        have hshows := shows_all _ mem
          (layout_apart mem.base a.toNat environ 0 b.toNat (by omega))
        generalize hmem : (layout mem.base a.toNat environ 0 b.toNat).foldl Memory.run mem = mem'
          at hbase hbuffer hshows ⊢
        rw [← hbase] at hshows
        rw [List.range_eq_range', ← hbase]
        exact strings_of_layout a.toNat environ 0 b.toNat hshows hend hbuffer

/-- The call stays inside the memory exactly where the words of the array do; and the guest that
follows the reported sizes gets its strings exactly when its pointers are not NULL and its
buffer does not end at 2^32. -/
theorem environ_get_iff (environ : List CString) (mem : Memory) (a b : BitVec 32) :
    (WritesInside mem (environGet environ mem a b).1 ↔
      (Within mem a (environ.length % 2 ^ 32) → RoomFor mem a environ 0 b)) ∧
    (∀ before sizes, Reported environ before sizes → Areas mem a b sizes →
      (ReadsBack environ mem a b sizes ↔ SizesHold environ a b)) := by
  constructor
  · rw [environGet_eq]
    by_cases hwithin : Within mem a (environ.length % 2 ^ 32)
    · rw [if_pos hwithin, loop_inside_iff]
      exact ⟨fun h _ => h, fun h => h hwithin⟩
    · rw [if_neg hwithin]
      constructor
      · intro _ h
        exact absurd h hwithin
      · intro _ w hw
        exact absurd hw List.not_mem_nil
  · intro before sizes hreported hareas
    exact readsBack_iff hreported hareas

def onePage : Memory := ⟨0, 65536, Nat.le_of_ble_eq_true rfl, fun _ _ => 0⟩

/-- `A=b` and `C=d`. -/
def twoStrings : List CString :=
  [⟨[65, 61, 98], by decide, by decide⟩, ⟨[67, 61, 100], by decide, by decide⟩]

/-- The sizes go to 16 and 20, the addresses to 32 and the strings to 64. -/
theorem environ_get_two :
    WritesInside onePage (environGet twoStrings onePage 32 64).1 ∧
      ReadsBack twoStrings onePage 32 64 (2, 8) := by
  have hexact := environ_get_iff twoStrings onePage 32 64
  have hreported : Reported twoStrings onePage (2, 8) := ⟨16, 20, _, by decide, rfl, by decide⟩
  have hareas : Areas onePage 32 64 (2, 8) := ⟨by decide, by decide, .inl (by decide)⟩
  constructor
  · apply hexact.1.mpr
    intro _
    simp only [RoomFor, twoStrings]
    decide
  · apply (hexact.2 onePage (2, 8) hreported hareas).mpr
    exact .inr (by decide)

/-- One string, and the array at the last byte of a memory of one page: the slice of one byte
passes and the word leaves the memory. -/
theorem array_past_the_end :
    ¬ ∀ (environ : List CString) (mem : Memory) (a b : BitVec 32),
      WritesInside mem (environGet environ mem a b).1 := by
  intro h
  have hwrites := h [⟨[65, 61, 98], by decide, by decide⟩]
    onePage 65535 8
  rw [environGet_eq, if_pos (by decide), loop_inside_iff] at hwrites
  exact absurd hwrites.2.1 (by decide)

end NgxWasm.Wasi
