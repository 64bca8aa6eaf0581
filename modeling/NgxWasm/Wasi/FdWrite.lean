import NgxWasm.Lib.Ledger
import NgxWasm.Wasi.Environ

/-!
# What a WASI guest prints

`ngx_wasi_preview1_host.c`: `ngx_wasi_hfuncs_fd_write` (205-307). One pass over the guest's vectors
finds the size of the message, a second one copies it to a buffer of the host. A trap of a lift
returns at once. The limit of a log line is left out.
-/

namespace NgxWasm.Wasi

open NgxWasm NgxWasm.Lib NgxWasm.Wavm
open NgxWasm.Lib.Ledger (Proper held)

inductive LogLevel where
  | info
  | err
  deriving Repr, DecidableEq

inductive FdErrno where
  | success
  | badf
  | efault
  | trap
  deriving Repr, DecidableEq

/-- `acts` is what becomes of the host's buffer. -/
structure FdOut where
  errno : FdErrno
  mem : Memory
  log : Option (LogLevel × Bytes)
  acts : List (Ledger.Act ℕ)

def fdLevel (fd : BitVec 32) : Option LogLevel :=
  if fd = 1 then some .info else if fd = 2 then some .err else none

/-- The sum of the lengths; it does not reach 2^64. -/
def firstPass (mem : Memory) : ℕ → BitVec 32 → ℕ → Option ℕ
  | 0, _, msgSize => some msgSize
  | k + 1, iovsPtr, msgSize =>
    match hostLift mem (iovsPtr + 4) with
    | none => none
    | some q => firstPass mem k (iovsPtr + 8) (msgSize + loadU32 mem q)

/-- What `ngx_memcpy` reads. -/
def sliceBytes (mem : Memory) (s : Slice) : Bytes :=
  match s.data with
  | none => []
  | some q => (List.range s.len.toNat).map fun i => mem.heap q.area (q.off + i)

def secondPass (mem : Memory) : ℕ → BitVec 32 → Bytes → Option Bytes
  | 0, _, msg => some msg
  | k + 1, iovsPtr, msg =>
    match hostLift mem iovsPtr, hostLift mem (iovsPtr + 4) with
    | some q, some q' =>
      match hostLiftSlice mem (BitVec.ofNat 32 (loadU32 mem q))
          (.uintArg (BitVec.ofNat 32 (loadU32 mem q'))) with
      | none => none
      | some buf => secondPass mem k (iovsPtr + 8) (msg ++ sliceBytes mem buf)
    | _, _ => none

def dropNewline (msg : Bytes) : Bytes := if msg.getLast? = some 10 then msg.dropLast else msg

/-- `alloc` says that the host's buffer is given. -/
def fdWrite (mem : Memory) (fd iovs iovsLen nwritten : BitVec 32) (alloc : Bool) : FdOut :=
  match hostLift mem nwritten with
  | none => ⟨.trap, mem, none, []⟩
  | some nw =>
    match fdLevel fd with
    | none => ⟨.badf, mem, none, []⟩
    | some level =>
      match firstPass mem iovsLen.toNat iovs 0 with
      | none => ⟨.trap, mem, none, []⟩
      | some 0 => ⟨.success, mem.store nw (u32Bytes 0), none, []⟩
      | some _ =>
        if !alloc then ⟨.efault, mem, none, []⟩
        else
          match secondPass mem iovsLen.toNat iovs [] with
          -- the buffer is not freed
          | none => ⟨.trap, mem, none, [.acquire 0]⟩
          | some msg =>
            ⟨.success, mem.store nw (u32Bytes msg.length),
              if msg = [] then none else some (level, dropNewline msg), [.acquire 0, .release 0]⟩

/-! ### What the guest asked for -/

/-- The address of the vector `i`. -/
def iov (iovs : BitVec 32) (i : ℕ) : BitVec 32 := iovs + BitVec.ofNat 32 (8 * i)

def wordAt (mem : Memory) (p : BitVec 32) : ℕ := loadU32 mem ⟨mem.base, p.toNat⟩

def bufAddr (mem : Memory) (iovs : BitVec 32) (i : ℕ) : BitVec 32 :=
  BitVec.ofNat 32 (wordAt mem (iov iovs i))

def bufLen (mem : Memory) (iovs : BitVec 32) (i : ℕ) : ℕ := wordAt mem (iov iovs i + 4)

def guestBytes (mem : Memory) (p : BitVec 32) (n : ℕ) : Bytes :=
  if p = 0 then [] else (List.range n).map fun i => mem.heap mem.base (p.toNat + i)

def msgTotal (mem : Memory) (iovs : BitVec 32) (n : ℕ) : ℕ :=
  ((List.range n).map (bufLen mem iovs)).sum

def gathered (mem : Memory) (iovs : BitVec 32) (n : ℕ) : Bytes :=
  (List.range n).flatMap fun i => guestBytes mem (bufAddr mem iovs i) (bufLen mem iovs i)

def LensOk (mem : Memory) (iovs : BitVec 32) (n : ℕ) : Prop :=
  ∀ i < n, (hostLift mem (iov iovs i + 4)).isSome = true

/-- The vectors can be read, and what they name lies in the guest's memory. -/
def BufsOk (mem : Memory) (iovs : BitVec 32) (n : ℕ) : Prop :=
  ∀ i < n, (hostLift mem (iov iovs i)).isSome = true ∧
    Within mem (bufAddr mem iovs i) (bufLen mem iovs i)

theorem iov_zero (p : BitVec 32) : iov p 0 = p := by simp [iov]

theorem iov_succ (p : BitVec 32) (i : ℕ) : iov p (i + 1) = iov (p + 8) i := by
  apply BitVec.eq_of_toNat_eq
  have height : (8 : BitVec 32).toNat = 8 := rfl
  simp only [iov, BitVec.toNat_add, BitVec.toNat_ofNat, height]
  omega

theorem forall_lt_succ_iff {P : ℕ → Prop} (n : ℕ) :
    (∀ i < n + 1, P i) ↔ P 0 ∧ ∀ i < n, P (i + 1) := by
  constructor
  · intro h
    exact ⟨h 0 (by omega), fun i hi => h (i + 1) (by omega)⟩
  · intro h i hi
    cases i with
    | zero => exact h.1
    | succ i => exact h.2 i (by omega)

theorem hostLift_word {mem : Memory} {p : BitVec 32} {q : HostPtr} (h : hostLift mem p = some q) :
    loadU32 mem q = wordAt mem p := by
  rw [(hostLift_eq h).1]
  rfl

theorem wordAt_lt (mem : Memory) (p : BitVec 32) : wordAt mem p < 2 ^ 32 := loadU32_lt mem _

theorem msgTotal_succ (mem : Memory) (p : BitVec 32) (n : ℕ) :
    msgTotal mem p (n + 1) = wordAt mem (p + 4) + msgTotal mem (p + 8) n := by
  rw [msgTotal, List.range_succ_eq_map, List.map_cons, List.sum_cons, List.map_map, msgTotal]
  congr 1
  · rw [bufLen, iov_zero]
  · congr 1
    apply List.map_congr_left
    intro i _
    simp only [Function.comp, bufLen, iov_succ]

theorem gathered_succ (mem : Memory) (p : BitVec 32) (n : ℕ) :
    gathered mem p (n + 1) =
      guestBytes mem (BitVec.ofNat 32 (wordAt mem p)) (wordAt mem (p + 4)) ++
        gathered mem (p + 8) n := by
  rw [gathered, List.range_succ_eq_map, List.flatMap_cons, List.flatMap_map, gathered]
  congr 1
  · rw [bufAddr, bufLen, iov_zero]
  · apply List.flatMap_congr
    intro i _
    simp only [bufAddr, bufLen, iov_succ]

/-! ### The two passes -/

theorem firstPass_iff (mem : Memory) (n : ℕ) (p : BitVec 32) (acc t : ℕ) :
    firstPass mem n p acc = some t ↔ LensOk mem p n ∧ t = acc + msgTotal mem p n := by
  induction n generalizing p acc with
  | zero =>
    have hall : LensOk mem p 0 := fun i hi => absurd hi (Nat.not_lt_zero i)
    simp only [firstPass, Option.some.injEq, hall, true_and, msgTotal, List.range_zero,
      List.map_nil, List.sum_nil, Nat.add_zero]
    exact eq_comm
  | succ n ih =>
    rw [LensOk, forall_lt_succ_iff, iov_zero, msgTotal_succ, firstPass]
    simp only [iov_succ]
    cases hq : hostLift mem (p + 4) with
    | none => simp
    | some q =>
      simp only [ih, hostLift_word hq, LensOk, Option.isSome_some, true_and, Nat.add_assoc]

/-- A slice with a 32-bit length and the bytes it names. -/
theorem hostLiftSlice_bytes (mem : Memory) (p : BitVec 32) {n : ℕ} (hn : n < 2 ^ 32) :
    (∃ s, hostLiftSlice mem p (.uintArg (BitVec.ofNat 32 n)) = some s ∧
        sliceBytes mem s = guestBytes mem p n) ∧ Within mem p n ∨
      hostLiftSlice mem p (.uintArg (BitVec.ofNat 32 n)) = none ∧ ¬ Within mem p n := by
  have hiff := lifted_slice_iff mem p (.uintArg (BitVec.ofNat 32 n))
  have hused : (Length.uintArg (BitVec.ofNat 32 n)).used.toNat = n := by
    simp only [Length.used, BitVec.toNat_setWidth, BitVec.toNat_ofNat]
    omega
  rw [hused, Nat.mod_eq_of_lt hn] at hiff
  cases hs : hostLiftSlice mem p (.uintArg (BitVec.ofNat 32 n)) with
  | none =>
    rw [hs] at hiff
    exact Or.inr ⟨rfl, fun h => absurd (hiff.mpr h) (by simp)⟩
  | some s =>
    rw [hs] at hiff
    have hwithin := hiff.mp rfl
    refine Or.inl ⟨⟨s, rfl, ?_⟩, hwithin⟩
    have hlen := lifted_slice_len hs
    unfold hostLiftSlice at hs
    split at hs
    · exact absurd hs (by simp)
    · rename_i hlift
      rw [← Option.some.inj hs]
      unfold memoryLift at hlift
      split_ifs at hlift with hp _ _ _
      simp [sliceBytes, guestBytes, hp]
    · rename_i q hlift
      rw [← Option.some.inj hs] at hlen ⊢
      unfold memoryLift at hlift
      split_ifs at hlift with hp _ _ _
      rw [← Lifted.at.inj hlift]
      simp only [sliceBytes, guestBytes, if_neg hp, hused]

theorem secondPass_iff (mem : Memory) (n : ℕ) (p : BitVec 32) (acc msg : Bytes) :
    secondPass mem n p acc = some msg ↔
      LensOk mem p n ∧ BufsOk mem p n ∧ msg = acc ++ gathered mem p n := by
  induction n generalizing p acc with
  | zero =>
    have hall : LensOk mem p 0 := fun i hi => absurd hi (Nat.not_lt_zero i)
    have hbufs : BufsOk mem p 0 := fun i hi => absurd hi (Nat.not_lt_zero i)
    simp only [secondPass, Option.some.injEq, hall, hbufs, true_and, gathered, List.range_zero,
      List.flatMap_nil, List.append_nil]
    exact eq_comm
  | succ n ih =>
    rw [LensOk, BufsOk, forall_lt_succ_iff, forall_lt_succ_iff, gathered_succ, secondPass,
      bufAddr, bufLen, iov_zero]
    simp only [bufAddr, bufLen, iov_succ]
    cases hq : hostLift mem p with
    | none => simp
    | some q =>
      cases hq' : hostLift mem (p + 4) with
      | none => simp
      | some q' =>
        simp only [hostLift_word hq, hostLift_word hq']
        rcases hostLiftSlice_bytes mem (BitVec.ofNat 32 (wordAt mem p)) (wordAt_lt mem (p + 4)) with
          ⟨⟨s, hs, hbytes⟩, hwithin⟩ | ⟨hs, hout⟩
        · rw [hs]
          simp only [ih, hbytes, LensOk, BufsOk, bufAddr, bufLen, Option.isSome_some, true_and,
            hwithin, List.append_assoc]
        · rw [hs]
          refine ⟨fun h => absurd h (by simp), ?_⟩
          intro h
          exact absurd h.2.1.1.2 hout

/-- The buffer of the first pass is what the second one fills. -/
theorem gathered_length {mem : Memory} {p : BitVec 32} {n : ℕ} (h : BufsOk mem p n) :
    (gathered mem p n).length = msgTotal mem p n := by
  rw [gathered, List.length_flatMap, msgTotal]
  congr 1
  apply List.map_congr_left
  intro i hi
  obtain ⟨_, hwithin⟩ := h i (List.mem_range.mp hi)
  unfold guestBytes
  split
  · rename_i hp
    rw [Within, if_pos hp] at hwithin
    exact hwithin.symm
  · simp

/-! ### The call -/

/-- The call got to its second pass and stopped in it. -/
def TrapsWithBuffer (mem : Memory) (fd iovs iovsLen nwritten : BitVec 32) (alloc : Bool) : Prop :=
  (hostLift mem nwritten).isSome = true ∧ (fdLevel fd).isSome = true ∧
    LensOk mem iovs iovsLen.toNat ∧ msgTotal mem iovs iovsLen.toNat ≠ 0 ∧ alloc = true ∧
    ¬BufsOk mem iovs iovsLen.toNat

/-- What a call does for vectors that can be read. -/
structure Printed (mem : Memory) (level : LogLevel) (iovs iovsLen nwritten : BitVec 32)
    (out : FdOut) : Prop where
  written : out.mem =
    mem.store ⟨mem.base, nwritten.toNat⟩ (u32Bytes (msgTotal mem iovs iovsLen.toNat))
  logged : out.log =
    if msgTotal mem iovs iovsLen.toNat = 0 then none
    else some (level, dropNewline (gathered mem iovs iovsLen.toNat))

theorem firstPass_none {mem : Memory} {n : ℕ} {p : BitVec 32} (h : firstPass mem n p 0 = none) :
    ¬LensOk mem p n := by
  intro hlens
  have hsome := (firstPass_iff mem n p 0 _).mpr ⟨hlens, rfl⟩
  exact absurd (h.symm.trans hsome) (by simp)

theorem secondPass_none {mem : Memory} {n : ℕ} {p : BitVec 32} (h : secondPass mem n p [] = none)
    (hlens : LensOk mem p n) : ¬BufsOk mem p n := by
  intro hbufs
  have hsome := (secondPass_iff mem n p [] _).mpr ⟨hlens, hbufs, rfl⟩
  exact absurd (h.symm.trans hsome) (by simp)

/-- A call succeeds exactly when the vectors can be read and the descriptor is one of the two; then
the log gets what they name, less a newline at the end, and the guest its length. Otherwise nothing
is written or logged. The host's buffer is kept only by a trap of the second pass. -/
theorem fdWrite_exact (mem : Memory) (fd iovs iovsLen nwritten : BitVec 32) (alloc : Bool) :
    let out := fdWrite mem fd iovs iovsLen nwritten alloc
    (out.errno = .success ↔ (hostLift mem nwritten).isSome = true ∧ (fdLevel fd).isSome = true ∧
      LensOk mem iovs iovsLen.toNat ∧ (msgTotal mem iovs iovsLen.toNat = 0 ∨
        alloc = true ∧ BufsOk mem iovs iovsLen.toNat)) ∧
    (out.errno = .success → ∀ level, fdLevel fd = some level →
      Printed mem level iovs iovsLen nwritten out) ∧
    (out.errno ≠ .success → out.mem = mem ∧ out.log = none) ∧
    Proper [] out.acts ∧
    (held [] out.acts = [] ↔ ¬TrapsWithBuffer mem fd iovs iovsLen nwritten alloc) := by
  dsimp only
  unfold fdWrite
  cases hnw : hostLift mem nwritten with
  | none => simp [TrapsWithBuffer, hnw, Proper, held]
  | some nw =>
  cases hlevel : fdLevel fd with
  | none => simp [TrapsWithBuffer, hlevel, Proper, held]
  | some level =>
  have hptr := (hostLift_eq hnw).1
  cases hfirst : firstPass mem iovsLen.toNat iovs 0 with
  | none =>
    have hno := firstPass_none hfirst
    simp [TrapsWithBuffer, hno, Proper, held]
  | some t =>
  obtain ⟨hlens, ht⟩ := (firstPass_iff mem _ iovs 0 t).mp hfirst
  rw [Nat.zero_add] at ht
  cases t with
  | zero =>
    have hzero : msgTotal mem iovs iovsLen.toNat = 0 := ht.symm
    refine ⟨by simp [hlens, hzero], ?_, by simp, trivial, ?_⟩
    · intro _ l _
      constructor
      · rw [hzero, hptr]
        rfl
      · rw [if_pos hzero]
        rfl
    · simp [TrapsWithBuffer, hzero, held]
  | succ k =>
  have hpos : msgTotal mem iovs iovsLen.toNat ≠ 0 := by omega
  cases alloc with
  | false => simp [TrapsWithBuffer, hpos, Proper, held]
  | true =>
  simp only [Bool.not_true, Bool.false_eq_true, if_false]
  cases hsecond : secondPass mem iovsLen.toNat iovs [] with
  | none =>
    have hno := secondPass_none hsecond hlens
    simp [TrapsWithBuffer, hnw, hlevel, hlens, hpos, hno, Proper, held]
  | some msg =>
    obtain ⟨_, hbufs, hmsg⟩ := (secondPass_iff mem _ iovs [] msg).mp hsecond
    rw [List.nil_append] at hmsg
    have hlen := gathered_length hbufs
    rw [← hmsg] at hlen
    have hne : msg ≠ [] := by
      intro hnil
      rw [hnil] at hlen
      exact hpos hlen.symm
    refine ⟨by simp [hlens, hbufs], ?_, by simp, ⟨by simp, by simp, trivial⟩, ?_⟩
    · intro _ l hl
      have hsame : level = l := Option.some.inj hl
      constructor
      · show mem.store nw (u32Bytes msg.length) = _
        rw [hlen, hptr]
      · show (if msg = [] then none else some (level, dropNewline msg)) = _
        rw [if_neg hne, if_neg hpos, hsame, hmsg]
    · simp [TrapsWithBuffer, hbufs, held]

end NgxWasm.Wasi
