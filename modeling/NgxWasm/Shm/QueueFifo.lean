import NgxWasm.Shm.Queue
import NgxWasm.Lib.Run

/-!
# The queue refines a FIFO of byte strings

`fifoStep` says what the queue is for. `Represents` relates a ring buffer to the
messages in it; the 4-byte header and the payload may wrap at any cell, since a
region of the ring is a prefix of the rotated buffer.
-/

namespace NgxWasm.Shm.QueueFifo
open NgxWasm.Lib NgxWasm.Shm.Queue

def used (ms : List Bytes) : ℕ := (ms.map fun m => 4 + m.length).sum

/-- The queue as a FIFO: a push that does not fit and a pop without memory for
the message leave it as it is. -/
def fifoStep (cap : ℕ) (ms : List Bytes) : Call → List Bytes × Answer
  | .push data =>
    if 4 + data.length ≤ cap - used ms then (ms ++ [data], ⟨.ok, none⟩) else (ms, ⟨.abort, none⟩)
  | .pop alloc =>
    match ms with
    | [] => ([], ⟨.again, none⟩)
    | m :: rest =>
      if m.length ≠ 0 ∧ alloc m.length = false then (m :: rest, ⟨.error, none⟩)
      else (rest, ⟨.ok, some m⟩)

def encode (ms : List Bytes) : Bytes := ms.flatMap fun m => u32Bytes m.length ++ m

theorem used_append (ms : List Bytes) (m : Bytes) : used (ms ++ [m]) = used ms + (4 + m.length) := by
  simp [used]

theorem used_cons (m : Bytes) (ms : List Bytes) : used (m :: ms) = 4 + m.length + used ms := rfl

theorem encode_length (ms : List Bytes) : (encode ms).length = used ms := by
  induction ms with
  | nil => rfl
  | cons m ms ih =>
    simp only [encode, List.flatMap_cons, List.length_append, u32Bytes_length] at ih ⊢
    rw [ih, used_cons]

/-! ### The pointer and copy primitives -/

theorem incPtr_eq_mod (q : ShmQueue) (ptr n : ℕ) (hp : ptr < queueCapacity q)
    (hn : n ≤ queueCapacity q) : incPtr q ptr n = (ptr + n) % queueCapacity q := by
  simp only [incPtr]
  split
  · rename_i h
    rw [Nat.mod_eq_sub_mod h, Nat.mod_eq_of_lt (by omega)]
  · rename_i h
    rw [Nat.mod_eq_of_lt (by omega)]

theorem circularWrite_frame (q : ShmQueue) (ptr : ℕ) (data : Bytes) :
    (circularWrite q ptr data).pushPtr = q.pushPtr ∧
      (circularWrite q ptr data).popPtr = q.popPtr := by
  simp only [circularWrite]
  split <;> exact ⟨rfl, rfl⟩

theorem circularWrite_capacity (q : ShmQueue) (ptr : ℕ) (data : Bytes)
    (hp : ptr < queueCapacity q) (hd : data.length ≤ queueCapacity q) :
    queueCapacity (circularWrite q ptr data) = queueCapacity q := by
  by_cases hw : queueCapacity q - ptr ≤ data.length
  · simp only [circularWrite, if_pos hw]
    have ht : (data.take (queueCapacity q - ptr)).length = queueCapacity q - ptr := by
      simp only [List.length_take]; omega
    have hf := Ring.blit_length q.buffer ptr (data.take (queueCapacity q - ptr))
      (by rw [ht, ← queueCapacity]; omega)
    show (Ring.blit _ _ _).length = q.buffer.length
    rw [Ring.blit_length _ _ _ (by rw [hf, List.length_drop, ← queueCapacity]; omega), hf]
  · simp only [circularWrite, if_neg hw]
    exact Ring.blit_length _ _ _ (by rw [← queueCapacity]; omega)

theorem circularWrite_rotate (q : ShmQueue) (ptr : ℕ) (data : Bytes)
    (hp : ptr < queueCapacity q) (hd : data.length ≤ queueCapacity q) :
    (circularWrite q ptr data).buffer.rotate ptr =
      data ++ (q.buffer.rotate ptr).drop data.length := by
  by_cases hw : queueCapacity q - ptr ≤ data.length
  · simp only [circularWrite, if_pos hw]
    exact Ring.blit_wrap_rotate q.buffer data ptr hp hw hd
  · simp only [circularWrite, if_neg hw]
    exact Ring.blit_rotate q.buffer data ptr (by rw [← queueCapacity]; omega)

theorem circularRead_eq (q : ShmQueue) (ptr n : ℕ) (hp : ptr < queueCapacity q)
    (hn : n ≤ queueCapacity q) : circularRead q ptr n = (q.buffer.rotate ptr).take n := by
  by_cases hw : queueCapacity q - ptr ≤ n
  · simp only [circularRead, if_pos hw]
    exact Ring.take_rotate_wrap q.buffer ptr n hp hw hn
  · simp only [circularRead, if_neg hw]
    exact Ring.take_rotate_straight q.buffer ptr n hp (by rw [← queueCapacity]; omega)

theorem circularWrite_extends (q : ShmQueue) (pop : ℕ) (region data : Bytes)
    (hcap : 0 < queueCapacity q) (hfit : region.length + data.length ≤ queueCapacity q)
    (hr : (q.buffer.rotate pop).take region.length = region) :
    ((circularWrite q ((pop + region.length) % queueCapacity q) data).buffer.rotate pop).take
      (region.length + data.length) = region ++ data := by
  have hp : (pop + region.length) % queueCapacity q < queueCapacity q := Nat.mod_lt _ hcap
  have hlen := circularWrite_capacity q _ data hp (by omega)
  have hw := circularWrite_rotate q _ data hp (by omega)
  have hq : q.buffer.rotate ((pop + region.length) % queueCapacity q) =
      (q.buffer.rotate pop).rotate region.length := by
    rw [queueCapacity, List.rotate_mod, List.rotate_rotate]
  have hq' : (circularWrite q ((pop + region.length) % queueCapacity q) data).buffer.rotate
      ((pop + region.length) % queueCapacity q) =
      ((circularWrite q ((pop + region.length) % queueCapacity q) data).buffer.rotate pop).rotate
        region.length := by
    rw [List.rotate_rotate, ← List.rotate_mod (n := pop + region.length)]
    exact congrArg _ (congrArg _ hlen.symm)
  have hb := Ring.rotate_write_behind q.buffer _ data pop _ region.length hfit hq hq' hw
  rw [hb, hr, List.take_left' (by rw [List.length_append])]

/-! ### The representation relation -/

/-- The ring buffer `q` of capacity `cap` holds exactly the messages `ms`. -/
structure Represents (cap : ℕ) (q : ShmQueue) (ms : List Bytes) : Prop where
  pos : 0 < cap
  capacity : queueCapacity q = cap
  popPtr_lt : q.popPtr < cap
  fits : used ms ≤ cap
  pushPtr : q.pushPtr = (q.popPtr + used ms) % cap
  full : used ms = cap → q.risingOccupancy = true
  empty : used ms = 0 → q.risingOccupancy = false
  contents : (q.buffer.rotate q.popPtr).take (used ms) = encode ms
  short : ∀ m ∈ ms, m.length < 2 ^ 32

theorem queueInit_represents (cap : ℕ) (h : 1 ≤ cap) : Represents cap (queueInit cap) [] where
  pos := h
  capacity := by simp [queueCapacity, queueInit]
  popPtr_lt := h
  fits := Nat.zero_le _
  pushPtr := by simp [queueInit, used]
  full := by intro he; simp only [used, List.map_nil, List.sum_nil] at he; omega
  empty := fun _ => rfl
  contents := rfl
  short := by simp

theorem occupancy_eq_used {cap : ℕ} {q : ShmQueue} {ms : List Bytes}
    (h : Represents cap q ms) : queueOccupancy q = used ms := by
  obtain ⟨hpos, hcap, hpop, hfit, hpush, hfull, hempty, -, -⟩ := h
  simp only [queueOccupancy, hcap]
  by_cases hw : q.popPtr + used ms < cap
  · rw [Nat.mod_eq_of_lt hw] at hpush
    by_cases hz : used ms = 0
    · rw [if_neg (by omega), if_neg (by omega), hempty hz, hz]
      rfl
    · rw [if_pos (by omega)]
      omega
  · rw [Nat.mod_eq_sub_mod (by omega), Nat.mod_eq_of_lt (by omega)] at hpush
    by_cases hf : used ms = cap
    · rw [if_neg (by omega), if_neg (by omega), hfull hf, hf]
      rfl
    · rw [if_neg (by omega), if_pos (by omega)]
      omega

theorem push_refuses {cap : ℕ} {q : ShmQueue} {ms : List Bytes} (data : Bytes)
    (h : Represents cap q ms) (hfull : ¬ 4 + data.length ≤ cap - used ms) :
    pushLocked q data = (q, .abort) := by
  simp only [pushLocked, h.capacity, occupancy_eq_used h]
  exact if_pos (by have := h.fits; omega)

theorem push_accepts {cap : ℕ} {q : ShmQueue} {ms : List Bytes} (data : Bytes)
    (h : Represents cap q ms) (hshort : data.length < 2 ^ 32)
    (hfit : 4 + data.length ≤ cap - used ms) :
    (pushLocked q data).2 = .ok ∧ Represents cap (pushLocked q data).1 (ms ++ [data]) := by
  have hocc := occupancy_eq_used h
  obtain ⟨hpos, hcap, hpop, hle, hpush, -, -, hcont, hsh⟩ := h
  -- the first write puts the header behind the queued region
  have hlen0 : (encode ms).length = used ms := encode_length ms
  have hpush_lt : q.pushPtr < cap := by rw [hpush]; exact Nat.mod_lt _ hpos
  have hinc (q' : ShmQueue) (hq : queueCapacity q' = cap) (p n : ℕ) (hp : p < cap)
      (hn : n ≤ cap) : incPtr q' p n = (p + n) % cap := by
    rw [incPtr_eq_mod q' p n (by omega) (by omega), hq]
  let q1 := circularWrite q q.pushPtr (u32Bytes data.length)
  have hq1cap : queueCapacity q1 = cap := by
    rw [← hcap]
    exact circularWrite_capacity q _ _ (by omega) (by rw [u32Bytes_length]; omega)
  have hq1 : (q1.buffer.rotate q.popPtr).take (used ms + 4) = encode ms ++ u32Bytes data.length := by
    have hx := circularWrite_extends q q.popPtr (encode ms) (u32Bytes data.length) (by omega)
      (by rw [u32Bytes_length]; omega) (by rw [hlen0]; exact hcont)
    rwa [hlen0, hcap, ← hpush, u32Bytes_length] at hx
  -- the second write starts where the header ends
  let q2 : ShmQueue := { q1 with pushPtr := incPtr q1 q1.pushPtr 4 }
  have hq1ptr : q1.pushPtr = q.pushPtr ∧ q1.popPtr = q.popPtr := circularWrite_frame q _ _
  have hq2ptr : q2.pushPtr = (q.popPtr + (used ms + 4)) % cap := by
    show incPtr q1 q1.pushPtr 4 = _
    rw [hq1ptr.1, hinc q1 hq1cap _ _ hpush_lt (by omega), hpush, Nat.mod_add_mod, Nat.add_assoc]
  have hq2lt : q2.pushPtr < cap := by rw [hq2ptr]; exact Nat.mod_lt _ hpos
  have hq2cap : queueCapacity q2 = cap := hq1cap
  let q3 := circularWrite q2 q2.pushPtr data
  have hq3cap : queueCapacity q3 = cap := by
    rw [← hq2cap]
    exact circularWrite_capacity q2 _ _ (by omega) (by omega)
  have hq3ptr : q3.pushPtr = q2.pushPtr ∧ q3.popPtr = q2.popPtr := circularWrite_frame q2 _ _
  have hlen1 : (encode ms ++ u32Bytes data.length).length = used ms + 4 := by
    rw [List.length_append, hlen0, u32Bytes_length]
  have hq3 : (q3.buffer.rotate q.popPtr).take (used (ms ++ [data])) = encode (ms ++ [data]) := by
    have hx := circularWrite_extends q2 q.popPtr (encode ms ++ u32Bytes data.length) data
      (by omega) (by rw [hlen1]; omega) (by rw [hlen1]; exact hq1)
    rw [hlen1, hq2cap, ← hq2ptr] at hx
    rw [used_append, ← Nat.add_assoc]
    simpa [encode, List.append_assoc] using hx
  have hstep : pushLocked q data =
      ({ q3 with pushPtr := incPtr q3 q3.pushPtr data.length, risingOccupancy := true }, .ok) := by
    simp only [pushLocked, hcap, hocc, Nat.mod_eq_of_lt hshort]
    rw [if_neg (by omega)]
  rw [hstep]
  refine ⟨rfl, ⟨hpos, hq3cap, ?_, ?_, ?_, fun _ => rfl, ?_, ?_, ?_⟩⟩
  · show q3.popPtr < cap
    rw [hq3ptr.2]
    show q1.popPtr < cap
    rw [hq1ptr.2]
    exact hpop
  · rw [used_append]; omega
  · show incPtr q3 q3.pushPtr data.length = (q3.popPtr + used (ms ++ [data])) % cap
    rw [hq3ptr.1, hq3ptr.2, hinc q3 hq3cap _ _ hq2lt (by omega), hq2ptr, Nat.mod_add_mod,
      used_append]
    show _ = (q1.popPtr + _) % cap
    rw [hq1ptr.2]
    congr 1
    omega
  · intro hz
    rw [used_append] at hz
    omega
  · show (q3.buffer.rotate q3.popPtr).take _ = _
    rw [hq3ptr.2]
    show (q3.buffer.rotate q1.popPtr).take _ = _
    rw [hq1ptr.2]
    exact hq3
  · intro m hm
    rcases List.mem_append.mp hm with hm | hm
    · exact hsh m hm
    · rw [List.mem_singleton.mp hm]
      exact hshort

theorem pop_empty {cap : ℕ} {q : ShmQueue} (alloc : ℕ → Bool) (h : Represents cap q []) :
    popLocked q alloc = (q, .again, none) := by
  simp only [popLocked, occupancy_eq_used h]
  exact if_pos (by decide)

theorem pop_header {cap : ℕ} {q : ShmQueue} {m : Bytes} {rest : List Bytes}
    (h : Represents cap q (m :: rest)) : u32Val (circularRead q q.popPtr 4) = m.length := by
  have hfit := h.fits
  rw [used_cons] at hfit
  have hc := congrArg (List.take 4) h.contents
  rw [List.take_take, used_cons, Nat.min_eq_left (by omega)] at hc
  rw [circularRead_eq q _ 4 (by rw [h.capacity]; exact h.popPtr_lt) (by rw [h.capacity]; omega), hc]
  simp only [encode, List.flatMap_cons, List.append_assoc]
  rw [List.take_left' (u32Bytes_length _), u32Val_u32Bytes _ (h.short m (List.mem_cons_self ..))]

theorem pop_refuses {cap : ℕ} {q : ShmQueue} {m : Bytes} {rest : List Bytes} (alloc : ℕ → Bool)
    (h : Represents cap q (m :: rest)) (hm : m.length ≠ 0 ∧ alloc m.length = false) :
    popLocked q alloc = (q, .error, none) := by
  simp only [popLocked, occupancy_eq_used h, pop_header h]
  rw [if_neg (by rw [used_cons]; omega), if_pos hm]

theorem pop_delivers {cap : ℕ} {q : ShmQueue} {m : Bytes} {rest : List Bytes} (alloc : ℕ → Bool)
    (h : Represents cap q (m :: rest)) (hm : ¬ (m.length ≠ 0 ∧ alloc m.length = false)) :
    (popLocked q alloc).2 = (.ok, some m) ∧ Represents cap (popLocked q alloc).1 rest := by
  have hocc := occupancy_eq_used h
  have hhead := pop_header h
  obtain ⟨hpos, hcap, hpop, hle, hpush, -, -, hcont, hsh⟩ := h
  rw [used_cons] at hle hpush hcont
  have hbuf : q.buffer.length = cap := hcap
  -- behind the header lie the payload and the other messages
  have hregion : (q.buffer.rotate ((q.popPtr + 4) % cap)).take (m.length + used rest) =
      m ++ encode rest := by
    have hx := Ring.take_rotate_behind q.buffer (u32Bytes m.length) (m ++ encode rest) q.popPtr
      (by rw [u32Bytes_length, List.length_append, encode_length, hbuf]; omega)
      (by
        rw [u32Bytes_length, List.length_append, encode_length, ← Nat.add_assoc, hcont]
        simp [encode, List.append_assoc])
    rwa [u32Bytes_length, hbuf, List.length_append, encode_length] at hx
  have hp1 : incPtr q q.popPtr 4 = (q.popPtr + 4) % cap := by
    rw [incPtr_eq_mod q _ _ (by omega) (by omega), hcap]
  have hp1lt : (q.popPtr + 4) % cap < cap := Nat.mod_lt _ hpos
  let q1 : ShmQueue := { q with popPtr := (q.popPtr + 4) % cap }
  have hq1cap : queueCapacity q1 = cap := hcap
  have hp2 : incPtr q1 q1.popPtr m.length = (q.popPtr + (4 + m.length)) % cap := by
    rw [incPtr_eq_mod q1 _ _ (by rw [hq1cap]; exact hp1lt) (by omega), hq1cap]
    show ((q.popPtr + 4) % cap + m.length) % cap = _
    rw [Nat.mod_add_mod, Nat.add_assoc]
  have hread : circularRead q1 q1.popPtr m.length = m := by
    rw [circularRead_eq q1 _ _ (by rw [hq1cap]; exact hp1lt) (by omega)]
    have ht := congrArg (List.take m.length) hregion
    rwa [List.take_take, Nat.min_eq_left (by omega), List.take_left] at ht
  have hstep : popLocked q alloc =
      ({ q1 with popPtr := (q.popPtr + (4 + m.length)) % cap, risingOccupancy := false },
        .ok, some m) := by
    simp only [popLocked, hocc, hhead]
    rw [if_neg (by rw [used_cons]; omega), if_neg hm, hp1]
    show ({ q1 with popPtr := incPtr q1 q1.popPtr m.length, risingOccupancy := false }, Rc.ok,
      some (circularRead q1 q1.popPtr m.length)) = _
    rw [hp2, hread]
  rw [hstep]
  refine ⟨rfl, ⟨hpos, hq1cap, Nat.mod_lt _ hpos, by omega, ?_, ?_, fun _ => rfl, ?_, ?_⟩⟩
  · show q.pushPtr = ((q.popPtr + (4 + m.length)) % cap + used rest) % cap
    rw [hpush, Nat.mod_add_mod]
    congr 1
    omega
  · intro hfull
    omega
  · show (q.buffer.rotate ((q.popPtr + (4 + m.length)) % cap)).take (used rest) = encode rest
    have hx := Ring.take_rotate_behind q.buffer m (encode rest) ((q.popPtr + 4) % cap)
      (by rw [encode_length, hbuf]; omega) (by rw [encode_length]; exact hregion)
    rwa [encode_length, hbuf, Nat.mod_add_mod, Nat.add_assoc] at hx
  · intro x hx
    exact hsh x (List.mem_cons_of_mem _ hx)

/-! ### Refinement -/

def Call.Short : Call → Prop
  | .push data => data.length < 2 ^ 32
  | .pop _ => True

theorem step_refines (cap : ℕ) (q : ShmQueue) (ms : List Bytes) (c : Call)
    (h : Represents cap q ms) (hc : Call.Short c) :
    Represents cap (step q c).1 (fifoStep cap ms c).1 ∧ (step q c).2 = (fifoStep cap ms c).2 := by
  cases c with
  | push data =>
    by_cases hfit : 4 + data.length ≤ cap - used ms
    · obtain ⟨hrc, hrep⟩ := push_accepts data h hc hfit
      simp only [step, fifoStep, if_pos hfit, hrc]
      exact ⟨hrep, trivial⟩
    · have hr := push_refuses data h hfit
      simp only [step, fifoStep, if_neg hfit, hr]
      exact ⟨h, trivial⟩
  | pop alloc =>
    cases ms with
    | nil =>
      simp only [step, fifoStep, pop_empty alloc h]
      exact ⟨h, trivial⟩
    | cons m rest =>
      by_cases hm : m.length ≠ 0 ∧ alloc m.length = false
      · simp only [step, fifoStep, if_pos hm, pop_refuses alloc h hm]
        exact ⟨h, trivial⟩
      · obtain ⟨hrc, hrep⟩ := pop_delivers alloc h hm
        simp only [step, fifoStep, if_neg hm, hrc]
        exact ⟨hrep, trivial⟩

theorem step_refused_unchanged (q : ShmQueue) (c : Call) (h : (step q c).2.rc ≠ .ok) :
    (step q c).1 = q := by
  cases c with
  | push data =>
    simp only [step, pushLocked] at h ⊢
    split
    · rfl
    · rename_i hfit
      rw [if_neg hfit] at h
      exact absurd rfl h
  | pop alloc =>
    simp only [step, popLocked] at h ⊢
    split
    · rfl
    · rename_i hocc
      rw [if_neg hocc] at h
      split
      · rfl
      · rename_i hm
        rw [if_neg hm] at h
        exact absurd rfl h

/-- Whatever was pushed, popped and refused before, the ring buffer answers as
the FIFO does, still represents it, and a refused call changes nothing. -/
theorem queue_refines_fifo (cap : ℕ) (hcap : 1 ≤ cap) (calls : List Call)
    (hshort : ∀ c ∈ calls, Call.Short c) :
    (Run.exec step (queueInit cap) calls).2 = (Run.exec (fifoStep cap) [] calls).2 ∧
      Represents cap (Run.exec step (queueInit cap) calls).1 (Run.exec (fifoStep cap) [] calls).1 ∧
      ∀ c, (step (Run.exec step (queueInit cap) calls).1 c).2.rc ≠ .ok →
        (step (Run.exec step (queueInit cap) calls).1 c).1 =
          (Run.exec step (queueInit cap) calls).1 := by
  obtain ⟨hrep, hans⟩ := Run.exec_simulates step (fifoStep cap) (fun _ c => Call.Short c)
    (Represents cap) (fun q ms c h hc => step_refines cap q ms c h hc) calls (queueInit cap) []
    (queueInit_represents cap hcap) (Run.meets_of_forall step Call.Short calls _ hshort)
  exact ⟨hans, hrep, fun c hc => step_refused_unchanged _ c hc⟩

/-- Nine cells: the second header wraps after three of its bytes, one pop finds
no memory, and the last one finds the queue empty. -/
theorem queue_refines_fifo_wrapped_header :
    (Run.exec step (queueInit 9) [.push [7, 8], .pop fun _ => true, .push [9], .push [1, 2],
      .pop fun _ => false, .pop fun _ => true, .pop fun _ => true]).2 =
      [⟨.ok, none⟩, ⟨.ok, some [7, 8]⟩, ⟨.ok, none⟩, ⟨.abort, none⟩, ⟨.error, none⟩,
        ⟨.ok, some [9]⟩, ⟨.again, none⟩] :=
  (queue_refines_fifo 9 (by decide) _ (by simp [Call.Short])).1.trans (by decide)

end NgxWasm.Shm.QueueFifo
