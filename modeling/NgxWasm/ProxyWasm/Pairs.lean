import NgxWasm.Basic
import Mathlib.Data.List.Basic
import Mathlib.Tactic.Common

/-!
# Pairs of a header map, sized, written and read back

`ngx_proxy_wasm_util.c`: `ngx_proxy_wasm_pairs_count` (252-282),
`ngx_proxy_wasm_pairs_size` (285-351), `ngx_proxy_wasm_pairs_marshal` (354-461),
`ngx_proxy_wasm_pairs_unmarshal` (464-534) and `ngx_proxy_wasm_marshal`
(537-566). Host sizes are unbounded here; `count` and the stored lengths are
`uint32_t`.
-/

namespace NgxWasm.ProxyWasm.Pairs

open NgxWasm

/-- `ngx_table_elt_t`. -/
structure Elt where
  hash : ℕ
  key : Bytes
  value : Bytes
  deriving Repr, DecidableEq

/-- `ngx_list_t`. `ngx_list_push` opens a further part only to put an element in
it, and nothing takes elements out again (removal clears `hash`). -/
structure HeaderList where
  part : List Elt
  next : List (List Elt)
  pushed : ∀ p ∈ next, p ≠ []

theorem pushed_nil : ∀ p ∈ ([] : List (List Elt)), p ≠ [] := fun _ hp => absurd hp List.not_mem_nil

def HeaderList.parts (list : HeaderList) : List (List Elt) := list.part :: list.next

def HeaderList.live (list : HeaderList) : List Elt :=
  list.parts.flatten.filter fun e => e.hash != 0

section Loop

variable {α : Type}

/-- The loop over one part from the element at the cursor on: `more` is the
loop's condition, `visit` its body on a live element. The flags say that the
loop was left. -/
def walkPart (more : α → Bool) (visit : α → Elt → α × Bool) : List Elt → α → α × Bool
  | [], a => (a, false)
  | e :: elts, a =>
    if more a then
      -- if (elt[i].hash == 0) continue;
      if e.hash == 0 then walkPart more visit elts a
      else
        match visit a e with
        | (a, true) => (a, true)
        | (a, false) => walkPart more visit elts a
    else (a, true)

/-- `part = part->next; i = 0;` until the loop is left or no part follows. -/
def walk (more : α → Bool) (visit : α → Elt → α × Bool) : List (List Elt) → α → α
  | [], a => a
  | p :: parts, a =>
    match walkPart more visit p a with
    | (a, true) => a
    | (a, false) => walk more visit parts a

end Loop

def pairsCount (list : HeaderList) : ℕ :=
  walk (fun _ => true) (fun c _ => (c + 1, false)) list.parts 0

/-- `NGX_PROXY_WASM_PTR_SIZE * 2` and the two strings with their terminators. -/
def pairSize (e : Elt) : ℕ := 4 * 2 + (e.key.length + 1) + (e.value.length + 1)

def sizeExtras (max : ℕ) : List Elt → ℕ × ℕ → ℕ
  | [], (size, _) => size
  | e :: es, (size, n) =>
    -- the limit is tested after the pair was added
    if max ≠ 0 ∧ max ≤ n then size + pairSize e
    else sizeExtras max es (size + pairSize e, n + 1)

def pairsSize (list : HeaderList) (extras : Option (List Elt)) (max : ℕ) : ℕ :=
  let st := walk (fun _ => true)
    (fun (st : ℕ × ℕ) e => ((st.1 + pairSize e, st.2 + 1), decide (max ≠ 0 ∧ max ≤ st.2 + 1)))
    list.parts (4, 0)
  match extras with
  | none => st.1
  | some elts => sizeExtras max elts st

/-- One of the two writing passes: `emit` is what a pair adds at `buf`. -/
def putExtras (emit : Elt → Bytes) (count : ℕ) : List Elt → Bytes × ℕ → Bytes × ℕ
  | [], st => st
  | e :: es, (buf, n) =>
    if n < count then putExtras emit count es (buf ++ emit e, n + 1) else (buf, n)

def putPass (emit : Elt → Bytes) (list : HeaderList) (extras : Option (List Elt)) (count : ℕ)
    (buf : Bytes) : Bytes :=
  let st := match extras with
    | none => (buf, 0)
    | some elts => putExtras emit count elts (buf, 0)
  (walk (fun (st : Bytes × ℕ) => decide (st.2 < count))
    (fun st e => ((st.1 ++ emit e, st.2 + 1), false)) list.parts st).1

def emitLengths (e : Elt) : Bytes := u32Bytes e.key.length ++ u32Bytes e.value.length

def emitStrings (e : Elt) : Bytes := e.key ++ [0] ++ e.value ++ [0]

/-- `count` and `*truncated`. -/
def marshalCount (list : HeaderList) (extras : Option (List Elt)) (max : ℕ) : ℕ × Option ℕ :=
  let count := pairsCount list % 2 ^ 32
  let count := match extras with
    | none => count
    | some elts => (count + elts.length) % 2 ^ 32
  if max ≠ 0 ∧ max < count then (max, some max) else (count, none)

def pairsMarshal (list : HeaderList) (extras : Option (List Elt)) (max : ℕ) :
    Bytes × Option ℕ :=
  let (count, truncated) := marshalCount list extras max
  let buf := u32Bytes count
  let buf := putPass emitLengths list extras count buf
  let buf := putPass emitStrings list extras count buf
  (buf, truncated)

/-- The guest's allocator and the size of its memory. -/
structure Guest where
  alloc : ℕ → Option ℕ
  memorySize : ℕ

structure Marshalled where
  out : ℕ
  outSize : ℕ
  truncated : Option ℕ
  memory : ℕ → UInt8

def store (memory : ℕ → UInt8) (p : ℕ) (bytes : Bytes) : ℕ → UInt8 :=
  fun a => if p ≤ a then (bytes[a - p]?).getD (memory a) else memory a

def marshal (g : Guest) (memory : ℕ → UInt8) (list : HeaderList) (shims : Option (List Elt))
    (max : ℕ) : Option Marshalled :=
  let size := pairsSize list shims max
  match g.alloc size with
  | none => none
  | some p =>
    if g.memorySize < p + size then none
    else
      let (bytes, truncated) := pairsMarshal list shims max
      some { out := p, outSize := size % 2 ^ 32, truncated, memory := store memory p bytes }

inductive Failure where
  /-- `NGX_ERROR`: an allocation failed. -/
  | nomem
  /-- A read behind the last byte of the map. -/
  | overread
  deriving Repr, DecidableEq

def readU32 : Bytes → Except Failure (ℕ × Bytes)
  | a :: b :: c :: d :: rest => .ok (u32Val [a, b, c, d], rest)
  | _ => .error .overread

def readLengths : ℕ → Bytes → Except Failure (List (ℕ × ℕ) × Bytes)
  | 0, buf => .ok ([], buf)
  | n + 1, buf => do
    let (key, buf) ← readU32 buf
    let (value, buf) ← readU32 buf
    let (lens, buf) ← readLengths n buf
    .ok ((key, value) :: lens, buf)

/-- `ngx_pnalloc(len + 1)`, then a copy of the string and of the byte after it. -/
def readString (room : Bool) (len : ℕ) (buf : Bytes) : Except Failure (Bytes × Bytes) :=
  if !room then .error .nomem
  else if buf.length < len + 1 then .error .overread
  else .ok (buf.take len, buf.drop (len + 1))

/-- `pool` answers the allocations in their order; `k` of them were made. -/
def readStrings (pool : ℕ → Bool) : ℕ → List (ℕ × ℕ) → Bytes → Except Failure (List Elt)
  | _, [], _ => .ok []
  | k, (key, value) :: lens, buf => do
    let (key, buf) ← readString (pool k) key buf
    let (value, buf) ← readString (pool (k + 1)) value buf
    let elts ← readStrings pool (k + 2) lens buf
    .ok ({ hash := 0, key, value } :: elts)

/-- `ngx_array_push` stays within the `count` elements that `ngx_array_init`
allocated. -/
def pairsUnmarshal (pool : ℕ → Bool) (map : Bytes) : Except Failure (List Elt) := do
  let (count, buf) ← if map.length = 0 then .ok (0, map) else readU32 map
  if !pool 0 then .error .nomem
  else
    let (lens, buf) ← readLengths count buf
    readStrings pool 1 lens buf

end NgxWasm.ProxyWasm.Pairs
