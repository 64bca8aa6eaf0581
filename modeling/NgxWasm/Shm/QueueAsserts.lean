import NgxWasm.Shm.QueueFifo

/-!
# The assertions of the queue (ngx_wa_shm_queue.c)

The functions of a debug build, where an `ngx_wa_assert` that fails ends the
process. The bounds are checked between the two halves of a push or a pop, when
the pointer has moved over the header and `rising_occupancy` is still the old one.
-/

namespace NgxWasm.Shm.QueueAsserts
open NgxWasm.Lib NgxWasm.Shm.Queue NgxWasm.Shm.QueueFifo

def ngxWaAssert (p : Prop) [Decidable p] : Option Unit := if p then some () else none

def incPtrDebug (q : ShmQueue) (ptr n : ℕ) : Option ℕ := do
  let newPtr := ptr + n
  let cap := queueCapacity q
  if cap ≤ newPtr then
    ngxWaAssert (newPtr - cap < cap)
    some (newPtr - cap)
  else some newPtr

def circularWriteDebug (q : ShmQueue) (ptr : ℕ) (data : Bytes) : Option ShmQueue := do
  let cap := queueCapacity q
  ngxWaAssert (data.length ≤ cap - queueOccupancy q)
  ngxWaAssert (ptr < cap)
  some (circularWrite q ptr data)

/-- `dataOut` tells whether the pointer is one, and not `NULL`. -/
def circularReadDebug (q : ShmQueue) (ptr : ℕ) (dataOut : Bool) (dataSize : ℕ) : Option Bytes := do
  let cap := queueCapacity q
  ngxWaAssert (dataSize ≤ queueOccupancy q)
  ngxWaAssert (ptr < cap)
  ngxWaAssert (dataOut = true)
  some (circularRead q ptr dataSize)

def checkQueueInvariance (q : ShmQueue) : Option Unit := do
  let cap := queueCapacity q
  ngxWaAssert (q.pushPtr < cap)
  ngxWaAssert (q.popPtr < cap)

def pushDebug (q : ShmQueue) (data : Bytes) : Option (ShmQueue × Rc) :=
  let len := data.length % 2 ^ 32
  let entrySize := 4 + data.length
  if queueCapacity q < queueOccupancy q + entrySize then some (q, .abort)
  else do
    let q ← circularWriteDebug q q.pushPtr (u32Bytes len)
    let pushPtr ← incPtrDebug q q.pushPtr 4
    let q := { q with pushPtr }
    let q ← circularWriteDebug q q.pushPtr data
    let pushPtr ← incPtrDebug q q.pushPtr data.length
    let q := { q with pushPtr, risingOccupancy := true }
    checkQueueInvariance q
    some (q, .ok)

def popDebug (q : ShmQueue) (alloc : ℕ → Bool) : Option (ShmQueue × Rc × Option Bytes) :=
  if queueOccupancy q < 4 then some (q, .again, none)
  else do
    let header ← circularReadDebug q q.popPtr true 4
    let len := u32Val header
    if len ≠ 0 ∧ alloc len = false then some (q, .error, none)
    else
      -- no memory is asked for an empty message
      let buf := decide (len ≠ 0)
      let popPtr ← incPtrDebug q q.popPtr 4
      let q := { q with popPtr }
      ngxWaAssert (buf = true)
      let data ← circularReadDebug q q.popPtr buf len
      let popPtr ← incPtrDebug q q.popPtr len
      let q := { q with popPtr, risingOccupancy := false }
      checkQueueInvariance q
      some (q, .ok, some data)

def stepDebug (q : ShmQueue) : Call → Option (ShmQueue × Answer)
  | .push data => (pushDebug q data).map fun r => (r.1, ⟨r.2, none⟩)
  | .pop alloc => (popDebug q alloc).map fun r => (r.1, ⟨r.2.1, r.2.2⟩)

/-! ### What a debug build computes -/

theorem ngxWaAssert_eq_some {p : Prop} [Decidable p] {u : Unit} :
    ngxWaAssert p = some u ↔ p := by
  by_cases h : p <;> simp [ngxWaAssert, h]

theorem ngxWaAssert_bind {α : Type} (p : Prop) [Decidable p] (f : Unit → Option α) :
    (ngxWaAssert p).bind f = if p then f () else none := by
  by_cases h : p <;> simp [ngxWaAssert, h]

theorem incPtrDebug_eq_some {q : ShmQueue} {ptr n p : ℕ} (h : incPtrDebug q ptr n = some p) :
    p = incPtr q ptr n := by
  simp only [incPtrDebug, Option.bind_eq_bind, ngxWaAssert_bind] at h
  simp only [incPtr]
  split at h
  · rename_i hw
    rw [if_pos hw]
    split at h
    · exact (Option.some.inj h).symm
    · exact absurd h (by simp)
  · rename_i hw
    rw [if_neg hw]
    exact (Option.some.inj h).symm

theorem circularWriteDebug_eq_some {q q' : ShmQueue} {ptr : ℕ} {data : Bytes}
    (h : circularWriteDebug q ptr data = some q') : q' = circularWrite q ptr data := by
  simp only [circularWriteDebug, Option.bind_eq_bind, Option.bind_eq_some_iff] at h
  obtain ⟨_, _, _, _, h⟩ := h
  exact (Option.some.inj h).symm

theorem circularReadDebug_eq_some {q : ShmQueue} {ptr n : ℕ} {dataOut : Bool} {bs : Bytes}
    (h : circularReadDebug q ptr dataOut n = some bs) : bs = circularRead q ptr n := by
  simp only [circularReadDebug, Option.bind_eq_bind, Option.bind_eq_some_iff] at h
  obtain ⟨_, _, _, _, _, _, h⟩ := h
  exact (Option.some.inj h).symm

theorem pushDebug_eq_some {q : ShmQueue} {data : Bytes} {r : ShmQueue × Rc}
    (h : pushDebug q data = some r) : r = pushLocked q data := by
  simp only [pushDebug, Option.bind_eq_bind] at h
  simp only [pushLocked]
  split at h
  · rename_i hfull
    rw [if_pos hfull]
    exact (Option.some.inj h).symm
  · rename_i hfull
    rw [if_neg hfull]
    simp only [Option.bind_eq_some_iff] at h
    obtain ⟨q1, hq1, p1, hp1, q2, hq2, p2, hp2, _, _, hr⟩ := h
    have h1 := circularWriteDebug_eq_some hq1
    have h2 := incPtrDebug_eq_some hp1
    have h3 := circularWriteDebug_eq_some hq2
    have h4 := incPtrDebug_eq_some hp2
    rw [← Option.some.inj hr, h4, h3, h2, h1]

theorem popDebug_eq_some {q : ShmQueue} {alloc : ℕ → Bool} {r : ShmQueue × Rc × Option Bytes}
    (h : popDebug q alloc = some r) : r = popLocked q alloc := by
  simp only [popDebug, Option.bind_eq_bind] at h
  simp only [popLocked]
  split at h
  · rename_i hempty
    rw [if_pos hempty]
    exact (Option.some.inj h).symm
  · rename_i hempty
    rw [if_neg hempty]
    obtain ⟨header, hheader, h⟩ := Option.bind_eq_some_iff.mp h
    have h1 := circularReadDebug_eq_some hheader
    rw [← h1]
    split at h
    · rename_i hmem
      rw [if_pos hmem]
      exact (Option.some.inj h).symm
    · rename_i hmem
      rw [if_neg hmem]
      simp only [Option.bind_eq_some_iff] at h
      obtain ⟨p1, hp1, _, _, data, hdata, p2, hp2, _, _, hr⟩ := h
      have h2 := incPtrDebug_eq_some hp1
      have h3 := circularReadDebug_eq_some hdata
      have h4 := incPtrDebug_eq_some hp2
      rw [← Option.some.inj hr, h4, h3, h2]

/-- A debug build that goes on does what a release build does. -/
theorem stepDebug_eq_some {q : ShmQueue} {c : Call} {r : ShmQueue × Answer}
    (h : stepDebug q c = some r) : r = step q c := by
  cases c with
  | push data =>
    obtain ⟨x, hx, rfl⟩ := Option.map_eq_some_iff.mp h
    rw [pushDebug_eq_some hx]
    rfl
  | pop alloc =>
    obtain ⟨x, hx, rfl⟩ := Option.map_eq_some_iff.mp h
    rw [popDebug_eq_some hx]
    rfl

/-! ### Which assertions hold -/

theorem incPtrDebug_isSome {q : ShmQueue} {ptr n : ℕ} (hp : ptr < queueCapacity q)
    (hn : n ≤ queueCapacity q) : incPtrDebug q ptr n = some (incPtr q ptr n) := by
  simp only [incPtrDebug, incPtr, Option.bind_eq_bind, ngxWaAssert_bind]
  split
  · rw [if_pos (by omega)]
  · rfl

theorem circularWriteDebug_isSome {q : ShmQueue} {ptr : ℕ} {data : Bytes}
    (hp : ptr < queueCapacity q) (hd : data.length ≤ queueCapacity q - queueOccupancy q) :
    circularWriteDebug q ptr data = some (circularWrite q ptr data) := by
  simp only [circularWriteDebug, Option.bind_eq_bind, ngxWaAssert_bind, if_pos hd, if_pos hp]

theorem circularReadDebug_isSome {q : ShmQueue} {ptr n : ℕ} (hp : ptr < queueCapacity q)
    (hn : n ≤ queueOccupancy q) :
    circularReadDebug q ptr true n = some (circularRead q ptr n) := by
  simp only [circularReadDebug, Option.bind_eq_bind, ngxWaAssert_bind, if_pos hn, if_pos hp,
    if_true]

theorem incPtr_lt {q : ShmQueue} {ptr n : ℕ} (hp : ptr < queueCapacity q)
    (hn : n ≤ queueCapacity q) : incPtr q ptr n < queueCapacity q := by
  rw [incPtr_eq_mod q ptr n hp hn]
  exact Nat.mod_lt _ (by omega)

/-- Both pointers are inside of the buffer. -/
structure Placed (q : ShmQueue) : Prop where
  pushPtr_lt : q.pushPtr < queueCapacity q
  popPtr_lt : q.popPtr < queueCapacity q

theorem checkQueueInvariance_eq {q : ShmQueue} (h : Placed q) :
    checkQueueInvariance q = some () := by
  simp only [checkQueueInvariance, Option.bind_eq_bind, ngxWaAssert_bind, if_pos h.pushPtr_lt]
  exact ngxWaAssert_eq_some.mpr h.popPtr_lt

theorem occupancy_le {q : ShmQueue} (h : Placed q) : queueOccupancy q ≤ queueCapacity q := by
  obtain ⟨h1, h2⟩ := h
  simp only [queueOccupancy]
  split
  · omega
  · split
    · omega
    · split <;> omega

/-- The room behind `n` bytes that the push pointer has moved over. -/
theorem occupancy_pushed {q : ShmQueue} (h : Placed q) (n m : ℕ)
    (hfit : queueOccupancy q + (n + m) ≤ queueCapacity q) :
    m ≤ queueCapacity q - queueOccupancy { q with pushPtr := incPtr q q.pushPtr n } := by
  obtain ⟨h1, h2⟩ := h
  have hmoved (p : ℕ) : queueOccupancy { q with pushPtr := p } =
      if q.popPtr < p then p - q.popPtr
      else if p < q.popPtr then queueCapacity q - (q.popPtr - p)
      else if q.risingOccupancy then queueCapacity q else 0 := rfl
  have hold := hmoved q.pushPtr
  have hinc : incPtr q q.pushPtr n =
    if queueCapacity q ≤ q.pushPtr + n then q.pushPtr + n - queueCapacity q
      else q.pushPtr + n := rfl
  rw [show ({ q with pushPtr := q.pushPtr } : ShmQueue) = q from rfl] at hold
  rw [hmoved, hinc]
  generalize queueCapacity q = cap at *
  generalize queueOccupancy q = occ at *
  split_ifs at hold ⊢ <;> omega

theorem circularWrite_rising (q : ShmQueue) (ptr : ℕ) (data : Bytes) :
    (circularWrite q ptr data).risingOccupancy = q.risingOccupancy := by
  simp only [circularWrite]
  split <;> rfl

/-- The bytes alone change, and the capacity stays. -/
theorem circularWrite_same {q : ShmQueue} {ptr : ℕ} {data : Bytes} (hp : ptr < queueCapacity q)
    (hd : data.length ≤ queueCapacity q) :
    queueCapacity (circularWrite q ptr data) = queueCapacity q ∧
      queueOccupancy (circularWrite q ptr data) = queueOccupancy q := by
  have hcap := circularWrite_capacity q ptr data hp hd
  obtain ⟨hpush, hpop⟩ := circularWrite_frame q ptr data
  refine ⟨hcap, ?_⟩
  simp only [queueOccupancy, hcap, hpush, hpop, circularWrite_rising]

theorem circularWrite_placed {q : ShmQueue} {ptr : ℕ} {data : Bytes} (h : Placed q)
    (hp : ptr < queueCapacity q) (hd : data.length ≤ queueCapacity q) :
    Placed (circularWrite q ptr data) := by
  have hcap := circularWrite_capacity q ptr data hp hd
  obtain ⟨hpush, hpop⟩ := circularWrite_frame q ptr data
  exact ⟨by rw [hpush, hcap]; exact h.pushPtr_lt, by rw [hpop, hcap]; exact h.popPtr_lt⟩

theorem push_asserts {q : ShmQueue} (data : Bytes) (h : Placed q) :
    pushDebug q data = some (pushLocked q data) ∧ Placed (pushLocked q data).1 := by
  have hocc := occupancy_le h
  by_cases hfull : queueCapacity q < queueOccupancy q + (4 + data.length)
  · simp only [pushDebug, pushLocked, if_pos hfull]
    exact ⟨trivial, h⟩
  · have hlen := u32Bytes_length (data.length % 2 ^ 32)
    have hp := h.pushPtr_lt
    -- the header
    let q1 := circularWrite q q.pushPtr (u32Bytes (data.length % 2 ^ 32))
    have hq1 : Placed q1 := circularWrite_placed h hp (by omega)
    obtain ⟨hcap1, hocc1⟩ : queueCapacity q1 = queueCapacity q ∧
        queueOccupancy q1 = queueOccupancy q := circularWrite_same hp (by omega)
    let q2 : ShmQueue := { q1 with pushPtr := incPtr q1 q1.pushPtr 4 }
    have hcap2 : queueCapacity q2 = queueCapacity q1 := rfl
    have hq2 : Placed q2 := ⟨incPtr_lt hq1.pushPtr_lt (by omega), hq1.popPtr_lt⟩
    have hroom : data.length ≤ queueCapacity q2 - queueOccupancy q2 :=
      occupancy_pushed hq1 4 data.length (by omega)
    -- the bytes behind it
    let q3 := circularWrite q2 q2.pushPtr data
    have hq3 : Placed q3 := circularWrite_placed hq2 hq2.pushPtr_lt (by omega)
    have hcap3 : queueCapacity q3 = queueCapacity q2 :=
      circularWrite_capacity q2 _ _ hq2.pushPtr_lt (by omega)
    have hq4 : Placed { q3 with
        pushPtr := incPtr q3 q3.pushPtr data.length, risingOccupancy := true } :=
      ⟨incPtr_lt hq3.pushPtr_lt (by omega), hq3.popPtr_lt⟩
    have h1 : circularWriteDebug q q.pushPtr (u32Bytes (data.length % 2 ^ 32)) = some q1 :=
      circularWriteDebug_isSome hp (by omega)
    have h2 : incPtrDebug q1 q1.pushPtr 4 = some (incPtr q1 q1.pushPtr 4) :=
      incPtrDebug_isSome hq1.pushPtr_lt (by omega)
    have h3 : circularWriteDebug q2 q2.pushPtr data = some q3 :=
      circularWriteDebug_isSome hq2.pushPtr_lt hroom
    have h4 : incPtrDebug q3 q3.pushPtr data.length = some (incPtr q3 q3.pushPtr data.length) :=
      incPtrDebug_isSome hq3.pushPtr_lt (by omega)
    have hrun : pushLocked q data = ({ q3 with
        pushPtr := incPtr q3 q3.pushPtr data.length, risingOccupancy := true }, .ok) := by
      simp only [pushLocked, if_neg hfull]
      rfl
    rw [hrun]
    refine ⟨?_, hq4⟩
    simp only [pushDebug, if_neg hfull, Option.bind_eq_bind, h1, h2, Option.bind_some]
    rw [show ({ q1 with pushPtr := incPtr q1 q1.pushPtr 4 } : ShmQueue) = q2 from rfl, h3]
    simp only [Option.bind_some, h4, checkQueueInvariance_eq hq4]

/-- A pop finds no entry or gets no memory, or the entry has bytes and all of them are there. -/
def PopFinds (q : ShmQueue) : Call → Prop
  | .push _ => True
  | .pop alloc =>
    let len := u32Val (circularRead q q.popPtr 4)
    4 ≤ queueOccupancy q → (len = 0 ∨ alloc len = true) →
      len ≠ 0 ∧ len ≤ queueOccupancy { q with popPtr := incPtr q q.popPtr 4 }

theorem pop_asserts {q : ShmQueue} (alloc : ℕ → Bool) (h : Placed q) :
    (popDebug q alloc).isSome = true ↔ PopFinds q (.pop alloc) := by
  have hocc := occupancy_le h
  by_cases hempty : queueOccupancy q < 4
  · simp only [popDebug, if_pos hempty, Option.isSome_some, PopFinds, true_iff]
    intro h4
    omega
  · have hread := circularReadDebug_isSome h.popPtr_lt (n := 4) (by omega)
    simp only [popDebug, if_neg hempty, Option.bind_eq_bind, hread, Option.bind_some, PopFinds]
    generalize u32Val (circularRead q q.popPtr 4) = len
    by_cases hmem : len ≠ 0 ∧ alloc len = false
    · rw [if_pos hmem]
      simp only [Option.isSome_some, true_iff]
      intro _ hor
      rcases hor with h0 | ht
      · exact absurd h0 hmem.1
      · rw [hmem.2] at ht
        exact absurd ht (by simp)
    · have hgot : len = 0 ∨ alloc len = true := by
        by_cases h0 : len = 0
        · exact Or.inl h0
        · refine Or.inr ?_
          cases ha : alloc len with
          | true => rfl
          | false => exact absurd ⟨h0, ha⟩ hmem
      have hinc := incPtrDebug_isSome h.popPtr_lt (n := 4) (by omega)
      let q1 : ShmQueue := { q with popPtr := incPtr q q.popPtr 4 }
      have hq1 : Placed q1 := ⟨h.pushPtr_lt, incPtr_lt h.popPtr_lt (by omega)⟩
      have hocc1 := occupancy_le hq1
      rw [if_neg hmem]
      simp only [hinc, Option.bind_some, ngxWaAssert_bind]
      by_cases hlen : len ≠ 0 ∧ len ≤ queueOccupancy q1
      · have hread1 : circularReadDebug q1 q1.popPtr true len =
            some (circularRead q1 q1.popPtr len) := circularReadDebug_isSome hq1.popPtr_lt hlen.2
        have hinc1 : incPtrDebug q1 (incPtr q q.popPtr 4) len =
            some (incPtr q1 q1.popPtr len) :=
          incPtrDebug_isSome hq1.popPtr_lt (by omega)
        have hq2 : Placed { q with
            popPtr := incPtr q1 q1.popPtr len, risingOccupancy := false } :=
          ⟨hq1.pushPtr_lt, incPtr_lt hq1.popPtr_lt (by omega)⟩
        have hcheck := checkQueueInvariance_eq hq2
        rw [if_pos (decide_eq_true hlen.1), decide_eq_true hlen.1,
          show ({ q with popPtr := incPtr q q.popPtr 4 } : ShmQueue) = q1 from rfl, hread1]
        simp only [Option.bind_some, hinc1, hcheck, Option.isSome_some, true_iff]
        exact fun _ _ => hlen
      · have hbad : ¬ (4 ≤ queueOccupancy q → (len = 0 ∨ alloc len = true) →
            len ≠ 0 ∧ len ≤ queueOccupancy q1) := fun hall => hlen (hall (by omega) hgot)
        refine iff_of_false ?_ hbad
        by_cases h0 : len = 0
        · simp [h0]
        · have hlong : ¬ len ≤ queueOccupancy q1 := fun hle => hlen ⟨h0, hle⟩
          simp only [decide_eq_true h0, if_true, circularReadDebug, Option.bind_eq_bind,
            ngxWaAssert_bind]
          rw [show ({ q with popPtr := incPtr q q.popPtr 4 } : ShmQueue) = q1 from rfl,
            if_neg hlong]
          simp

theorem pop_placed {q : ShmQueue} (alloc : ℕ → Bool) (h : Placed q)
    (hfinds : PopFinds q (.pop alloc)) : Placed (popLocked q alloc).1 := by
  have hocc := occupancy_le h
  simp only [popLocked]
  split
  · exact h
  · rename_i hempty
    split
    · exact h
    · rename_i hmem
      have hq1 : Placed { q with popPtr := incPtr q q.popPtr 4 } :=
        ⟨h.pushPtr_lt, incPtr_lt h.popPtr_lt (by omega)⟩
      have hle := hfinds (by omega) (by
        by_cases h0 : u32Val (circularRead q q.popPtr 4) = 0
        · exact Or.inl h0
        · exact Or.inr (by simpa using fun ha => hmem ⟨h0, ha⟩))
      exact ⟨hq1.pushPtr_lt, incPtr_lt hq1.popPtr_lt (hle.2.trans (occupancy_le hq1))⟩

/-! ### Runs -/

theorem step_asserts {q : ShmQueue} (c : Call) (h : Placed q) :
    (stepDebug q c).isSome = true ↔ PopFinds q c := by
  cases c with
  | push data => simp [stepDebug, (push_asserts data h).1, PopFinds]
  | pop alloc =>
    simp only [stepDebug, Option.isSome_map]
    exact pop_asserts alloc h

theorem step_placed {q : ShmQueue} (c : Call) (h : Placed q) (hc : PopFinds q c) :
    Placed (step q c).1 := by
  cases c with
  | push data => exact (push_asserts data h).2
  | pop alloc => exact pop_placed alloc h hc

/-- No message without bytes is at the front when it is popped. -/
def FrontFilled (ms : List Bytes) : Call → Prop
  | .push _ => True
  | .pop _ => ms.head? ≠ some []

theorem occupancy_popped {cap : ℕ} {q : ShmQueue} {m : Bytes} {rest : List Bytes}
    (h : Represents cap q (m :: rest)) (hm : m ≠ []) :
    queueOccupancy { q with popPtr := incPtr q q.popPtr 4 } = m.length + used rest := by
  have hfit := h.fits
  have hpop := h.popPtr_lt
  have hpush := h.pushPtr
  have hcap := h.capacity
  have hpos := List.length_pos_iff.mpr hm
  rw [used_cons] at hfit hpush
  have hinc := incPtr_eq_mod q q.popPtr 4 (by omega) (by omega)
  have hp1 := Nat.mod_lt (q.popPtr + 4) h.pos
  have hpush1 : q.pushPtr = ((q.popPtr + 4) % cap + (m.length + used rest)) % cap := by
    rw [hpush, Nat.mod_add_mod]
    congr 1
    omega
  rw [hcap] at hinc
  simp only [queueOccupancy, hinc]
  rw [show queueCapacity { q with popPtr := (q.popPtr + 4) % cap } = cap from hcap]
  generalize (q.popPtr + 4) % cap = p at *
  by_cases hw : p + (m.length + used rest) < cap
  · rw [Nat.mod_eq_of_lt hw] at hpush1
    rw [if_pos (by omega)]
    omega
  · rw [Nat.mod_eq_sub_mod (by omega), Nat.mod_eq_of_lt (by omega)] at hpush1
    rw [if_neg (by omega), if_pos (by omega)]
    omega

theorem popFinds_iff_frontFilled {cap : ℕ} {q : ShmQueue} {ms : List Bytes} (c : Call)
    (h : Represents cap q ms) : PopFinds q c ↔ FrontFilled ms c := by
  cases c with
  | push data => exact Iff.rfl
  | pop alloc =>
    simp only [PopFinds, FrontFilled, occupancy_eq_used h]
    cases ms with
    | nil => simp [used]
    | cons m rest =>
      rw [pop_header h, used_cons]
      constructor
      · intro hfinds hnil
        have hm : m = [] := by simpa using hnil
        exact (hfinds (by omega) (Or.inl (by rw [hm]; rfl))).1 (by rw [hm]; rfl)
      · intro hfilled _ _
        have hm : m ≠ [] := fun hnil => hfilled (by rw [hnil]; rfl)
        have hlen := List.length_pos_iff.mpr hm
        rw [occupancy_popped h hm]
        exact ⟨by omega, by omega⟩

theorem queueInit_placed (cap : ℕ) (hcap : 1 ≤ cap) : Placed (queueInit cap) := by
  have hlen : queueCapacity (queueInit cap) = cap := by simp [queueCapacity, queueInit]
  exact ⟨by rw [hlen]; exact hcap, by rw [hlen]; exact hcap⟩

/-- All assertions of a run hold exactly when each pop finds an entry with bytes, and for
messages that the 4-byte length can count this is a fact about the FIFO. -/
theorem asserts_hold_iff (cap : ℕ) (hcap : 1 ≤ cap) (calls : List Call) :
    ((Run.tryExec stepDebug (queueInit cap) calls).isSome = true ↔
        Run.Meets step PopFinds (queueInit cap) calls) ∧
      ((∀ c ∈ calls, Call.Short c) →
        ((Run.tryExec stepDebug (queueInit cap) calls).isSome = true ↔
          Run.Meets (fifoStep cap) FrontFilled [] calls)) := by
  have hiff := Run.tryExec_isSome_iff stepDebug step (fun _ _ _ h => stepDebug_eq_some h)
    (fun q c h => step_asserts c h) (fun q c h hc => step_placed c h hc) calls (queueInit cap)
    (queueInit_placed cap hcap)
  refine ⟨hiff, fun hshort => hiff.trans ?_⟩
  exact Run.meets_simulates step (fifoStep cap) Call.Short (Represents cap)
    (fun q ms c h hc => (step_refines cap q ms c h hc).1)
    (fun q ms c h _ => popFinds_iff_frontFilled c h) calls (queueInit cap) []
    (queueInit_represents cap hcap) hshort

theorem asserts_hold_wrapped :
    (Run.tryExec stepDebug (queueInit 9) [.push [7, 8, 9, 1], .pop fun _ => true, .push [5, 6],
      .pop fun _ => false, .push [], .pop fun _ => true]).isSome = true :=
  (asserts_hold_iff 9 (by decide) _).2 (by simp [Call.Short])
    |>.mpr (by simp [fifoStep, FrontFilled, used])

/-- An empty message is queued and popped: `ngx_wa_assert(buf)` fails. -/
theorem empty_message_asserts :
    ¬ ∀ (cap : ℕ), 1 ≤ cap → ∀ calls : List Call,
      (Run.tryExec stepDebug (queueInit cap) calls).isSome = true := by
  intro h
  exact absurd (h 8 (by decide) [.push [], .pop fun _ => true]) (by decide)

end NgxWasm.Shm.QueueAsserts
