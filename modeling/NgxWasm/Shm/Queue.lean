import NgxWasm.Basic
import NgxWasm.Lib.Ring

/-!
# The shared-memory queue (ngx_wa_shm_queue.c)

A ring buffer of variable-length messages. Each message is a 4-byte length
followed by its bytes. `push_ptr = pop_ptr` means full or empty, told apart by
`rising_occupancy` alone. `ngx_wa_assert` is a no-op, as in a release build.
-/

namespace NgxWasm.Shm.Queue
open NgxWasm.Lib

/-- `ngx_wa_shm_queue_t`: `buffer` is the memory from `buffer` to `buffer_end`,
an allocated object, so its size plus a message length is no 64-bit overflow. -/
structure ShmQueue where
  buffer : Bytes
  pushPtr : ℕ
  popPtr : ℕ
  risingOccupancy : Bool
  deriving Repr, DecidableEq

def queueCapacity (q : ShmQueue) : ℕ := q.buffer.length

def queueOccupancy (q : ShmQueue) : ℕ :=
  if q.popPtr < q.pushPtr then q.pushPtr - q.popPtr
  else if q.pushPtr < q.popPtr then queueCapacity q - (q.popPtr - q.pushPtr)
  else if q.risingOccupancy then queueCapacity q else 0

def incPtr (q : ShmQueue) (ptr n : ℕ) : ℕ :=
  let newPtr := ptr + n
  if queueCapacity q ≤ newPtr then newPtr - queueCapacity q else newPtr

def circularWrite (q : ShmQueue) (ptr : ℕ) (data : Bytes) : ShmQueue :=
  let forwardCapacity := queueCapacity q - ptr
  if forwardCapacity ≤ data.length then
    let front := Ring.blit q.buffer ptr (data.take forwardCapacity)
    { q with buffer := Ring.blit front 0 (data.drop forwardCapacity) }
  else { q with buffer := Ring.blit q.buffer ptr data }

def circularRead (q : ShmQueue) (ptr dataSize : ℕ) : Bytes :=
  let forwardCapacity := queueCapacity q - ptr
  if forwardCapacity ≤ dataSize then
    (q.buffer.drop ptr).take forwardCapacity ++ q.buffer.take (dataSize - forwardCapacity)
  else (q.buffer.drop ptr).take dataSize

def queueInit (bufferSize : ℕ) : ShmQueue := ⟨List.replicate bufferSize 0, 0, 0, false⟩

/-- `ngx_wa_shm_queue_push_locked`. The header holds the length cast to `uint32_t`. -/
def pushLocked (q : ShmQueue) (data : Bytes) : ShmQueue × Rc :=
  let len := data.length % 2 ^ 32
  let entrySize := 4 + data.length
  if queueCapacity q < queueOccupancy q + entrySize then (q, .abort)
  else
    let q := circularWrite q q.pushPtr (u32Bytes len)
    let q := { q with pushPtr := incPtr q q.pushPtr 4 }
    let q := circularWrite q q.pushPtr data
    let q := { q with pushPtr := incPtr q q.pushPtr data.length }
    ({ q with risingOccupancy := true }, .ok)

/-- `ngx_wa_shm_queue_pop_locked`: the return code and, on `NGX_OK`, `data_out`.
`alloc n` tells whether the allocator answers a request for `n` bytes; it is
not asked for an empty message. -/
def popLocked (q : ShmQueue) (alloc : ℕ → Bool) : ShmQueue × Rc × Option Bytes :=
  if queueOccupancy q < 4 then (q, .again, none)
  else
    let len := u32Val (circularRead q q.popPtr 4)
    -- inc_ptr comes after the allocation, so that a failed one changes nothing
    if len ≠ 0 ∧ alloc len = false then (q, .error, none)
    else
      let q := { q with popPtr := incPtr q q.popPtr 4 }
      let data := circularRead q q.popPtr len
      let q := { q with popPtr := incPtr q q.popPtr len }
      ({ q with risingOccupancy := false }, .ok, some data)

inductive Call where
  | push (data : Bytes)
  | pop (alloc : ℕ → Bool)

structure Answer where
  rc : Rc
  dataOut : Option Bytes
  deriving Repr, DecidableEq

def step (q : ShmQueue) : Call → ShmQueue × Answer
  | .push data => let r := pushLocked q data; (r.1, ⟨r.2, none⟩)
  | .pop alloc => let r := popLocked q alloc; (r.1, ⟨r.2.1, r.2.2⟩)

end NgxWasm.Shm.Queue
