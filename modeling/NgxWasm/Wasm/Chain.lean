import NgxWasm.Basic
import NgxWasm.Lib.Links
import Mathlib.Logic.Function.Basic

/-!
# Editing a chain of buffers (ngx_wasm_util.c)

`ngx_wasm_chain_clear`, `_get_free_buf`, `_prepend`, `_append` and `_len`.
Links live at addresses; each has its own buffer, whose bytes are in memory or in
a file. The caller's free list and the free links of the memory pool are chains
too.
-/

namespace NgxWasm.Wasm.Chain
open NgxWasm.Lib Links

/-! ### Data -/

/-- `ngx_buf_t`: the room from `start` to `end` (none if `start` is null),
`ngx_buf_in_memory`, the bytes from `pos` to `last`, those from `file_pos` to
`file_last`, the tag and the flags. A buffer that is only in a file has no range
of memory, or the one that was written to the file. -/
structure Buf where
  start : Option ℕ
  inMemory : Bool
  data : Bytes
  file : Bytes
  within : inMemory = false → data.length ≤ file.length
  tag : ℕ
  flush : Bool
  lastBuf : Bool
  lastInChain : Bool

/-- The bytes that `ngx_buf_size` counts. -/
def Buf.bytes (b : Buf) : Bytes := if b.inMemory then b.data else b.file

/-- `ngx_buf_size` -/
def Buf.size (b : Buf) : ℕ := b.bytes.length

/-- `buf->last = buf->pos + n` -/
def Buf.keep (b : Buf) (n : ℕ) : Buf :=
  { b with
    data := b.data.take n
    within := fun h => (List.length_take_le' ..).trans (b.within h) }

/-- `buf->last = ngx_cpymem(buf->last, ..)`; a buffer for no bytes is not in memory. -/
def Buf.write (b : Buf) (str : Bytes) : Buf :=
  { b with
    data := if b.inMemory then b.data ++ str else b.data
    within := fun h => by simpa [h] using b.within h }

def Buf.unflag (b : Buf) : Buf := { b with flush := false, lastBuf := false, lastInChain := false }

def Buf.flagged (b : Buf) : Bool := b.lastBuf || b.lastInChain

/-- The links, with `free` the caller's free list and `pool` the free links of
the memory pool. Links are below `fresh`. -/
structure Mem where
  buf : ℕ → Buf
  next : ℕ → Option ℕ
  fresh : ℕ
  free : Option ℕ
  pool : Option ℕ

/-- Whether the pool gives a chain link and a buffer when asked. -/
structure Alloc where
  link : Bool
  buf : Bool

inductive Ret where
  | ok
  | error
  | abort
  deriving Repr, DecidableEq

def Mem.links (m : Mem) (a : Option ℕ) : List ℕ := walk m.next m.fresh a

/-- The buffers of a chain. -/
def Mem.bufs (m : Mem) (a : Option ℕ) : List Buf := (m.links a).map m.buf

def content (bs : List Buf) : Bytes := bs.flatMap Buf.bytes

def emptyBuf (start : Option ℕ) (tag : ℕ) (inMemory : Bool) : Buf :=
  ⟨start, inMemory, [], [], fun _ => Nat.le_refl 0, tag, false, false, false⟩

/-! ### `ngx_wasm_chain_len` -/

/-- The length up to the first flagged buffer, and whether there is one. -/
def chainLen : List Buf → ℕ × Bool
  | [] => (0, false)
  | b :: bs =>
    if b.flagged then (b.size, true)
    else
      let r := chainLen bs
      (b.size + r.1, r.2)

/-! ### `ngx_wasm_chain_clear` -/

structure Cleared where
  buf : ℕ → Buf
  pos : ℕ
  eof : Bool
  flush : Bool

/-- One buffer at position `pos`, and the position after it. -/
def clearBuf (offset pos : ℕ) (b : Buf) : Buf × ℕ :=
  let len := b.data.length
  let c := b.unflag
  if offset ≠ 0 ∧ offset < pos + len then
    let n := len - ((pos + len) - offset)
    (c.keep n, pos + n)
  else if pos = offset then (c.keep 0, pos)
  else (c, pos + len)

def chainClear (next : ℕ → Option ℕ) (offset : ℕ) : ℕ → Cleared → Option ℕ → Cleared
  | k + 1, c, some cl =>
    let b := c.buf cl
    let r := clearBuf offset c.pos b
    chainClear next offset k
      { buf := Function.update c.buf cl r.1
        pos := r.2
        eof := c.eof || b.flagged
        flush := c.flush || b.flush } (next cl)
  | _, c, _ => c

/-! ### `ngx_wasm_chain_get_free_buf` -/

/-- `ngx_alloc_chain_link`. -/
def allocLink (m : Mem) (ok : Bool) : Mem × Option ℕ :=
  match m.pool with
  | some cl => ({ m with pool := m.next cl }, some cl)
  | none => if ok then ({ m with fresh := m.fresh + 1 }, some m.fresh) else (m, none)

def setLink (m : Mem) (cl : ℕ) (b : Buf) (next : Option ℕ) : Mem :=
  { m with buf := Function.update m.buf cl b, next := Function.update m.next cl next }

def newLink (m : Mem) (len tag : ℕ) (a : Alloc) : Mem × Option ℕ :=
  match allocLink m a.link with
  | (m, none) => (m, none)
  | (m, some cl) =>
    if a.buf then
      let start := if len = 0 then none else some len
      (setLink m cl (emptyBuf start tag (len ≠ 0)) none, some cl)
    else (m, none)

def reuseLink (m : Mem) (cl len tag : ℕ) (a : Alloc) : Mem × Option ℕ :=
  let start := (m.buf cl).start
  let m := { m with free := m.next cl }
  if start.any (len ≤ ·) then (setLink m cl (emptyBuf start tag (len ≠ 0)) none, some cl)
  else
    let m := setLink m cl (emptyBuf none 0 false) none
    if len = 0 then (m, some cl)
    else if a.buf then (setLink m cl (emptyBuf (some len) tag true) none, some cl)
    else (m, none)

def getFreeBuf (m : Mem) (len tag : ℕ) (reuse : Bool) (a : Alloc) : Mem × Option ℕ :=
  match reuse, m.free with
  | true, some cl => reuseLink m cl len tag a
  | _, _ => newLink m len tag a

/-! ### `ngx_wasm_chain_prepend` -/

def writeBuf (m : Mem) (cl : ℕ) (str : Bytes) (flush eof : Bool) : Mem :=
  let b := m.buf cl
  { m with
    buf := Function.update m.buf cl
      { b.write str with
        flush := b.flush || flush
        lastBuf := b.lastBuf || eof
        lastInChain := b.lastInChain || eof } }

def setNext (m : Mem) (cl : ℕ) (next : Option ℕ) : Mem :=
  { m with next := Function.update m.next cl next }

def chainPrepend (m : Mem) (inp : Option ℕ) (str : Bytes) (tag : ℕ) (a : Alloc) :
    Mem × Option ℕ × Ret :=
  match getFreeBuf m str.length tag true a with
  | (m, none) => (m, inp, .error)
  | (m, some first) => (setNext (writeBuf m first str false false) first inp, some first, .ok)

/-! ### `ngx_wasm_chain_append` -/

/-- `ngx_free_chain`. -/
def freeChain (m : Mem) (cl : ℕ) : Mem :=
  { setNext m cl m.pool with pool := some cl }

/-- An empty link with the module's tag: it joins the free list if there is one. -/
def keepFree (m : Mem) (cl : ℕ) : Mem :=
  let b := m.buf cl
  let m := { m with buf := Function.update m.buf cl (b.keep 0) }
  let m := setNext m cl m.free
  { m with free := if m.free.isSome then some cl else none }

/-- `ll->next = cl->next`, if there is a link `ll`. -/
def unlink (m : Mem) (ll : Option ℕ) (cl : ℕ) : Mem :=
  match ll with
  | some l => setNext m l (m.next cl)
  | none => m

/-- The loop `while (cl)`; `ll` is the last link with content. -/
def getTail (tag : ℕ) : ℕ → Mem → Option ℕ → Option ℕ → Mem × Option ℕ
  | k + 1, m, ll, some cl =>
    if (m.buf cl).size ≠ 0 then getTail tag k m (some cl) (m.next cl)
    else if (m.buf cl).tag ≠ tag then
      let m := freeChain (unlink m ll cl) cl
      getTail tag k m ll (ll.bind m.next)
    else getTail tag k (keepFree m cl) ll (m.next cl)
  | _, m, ll, _ => (m, ll)

/-- With `extend = 0`, as every caller has it. -/
def chainAppend (m : Mem) (inp : Option ℕ) (offset : ℕ) (str : Bytes) (tag : ℕ) (a : Alloc) :
    Mem × Option ℕ × Ret :=
  let c := chainClear m.next offset m.fresh ⟨m.buf, 0, false, false⟩ inp
  let (m, ll) := getTail tag m.fresh { m with buf := c.buf } none inp
  match getFreeBuf m str.length tag true a with
  | (m, none) => (m, inp, .error)
  | (m, some nl) =>
    let m := writeBuf m nl str c.flush c.eof
    match ll with
    | some l => (setNext m l (some nl), inp, .ok)
    | none => (m, some nl, .ok)

end NgxWasm.Wasm.Chain
