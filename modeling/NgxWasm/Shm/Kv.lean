import NgxWasm.Basic
import NgxWasm.Lib.SearchTree
import Mathlib.Logic.Function.Basic

/-!
# The shared-memory key/value store (ngx_wa_shm_kv.c)

Nodes live in slab blocks and are linked twice: in an rbtree by the crc32 of
their key and in an eviction queue. A block is named by the number of the
allocation that returned it, so a freed block is never handed out again. The
log records what happened to blocks and entries; no function of the store reads
it.
-/

namespace NgxWasm.Shm.Kv
open NgxWasm.Lib SearchTree

/-! ### Keys -/

def crc32Byte (c : ℕ) (b : UInt8) : ℕ :=
  (List.range 8).foldl
    (fun c _ => if c % 2 = 1 then (c >>> 1) ^^^ 0xEDB88320 else c >>> 1) (c ^^^ b.toNat)

def crc32 (p : Bytes) : ℕ := p.foldl crc32Byte 0xFFFFFFFF ^^^ 0xFFFFFFFF

/-! ### Data -/

structure Node where
  hash : ℕ
  key : Bytes
  value : Bytes
  cas : ℕ
  deriving Repr, DecidableEq

/-- `sizeof(ngx_wa_shm_kv_node_t)` on a 64-bit target. -/
def nodeSize : ℕ := 96

inductive Eviction where
  | lru
  | slru
  | none
  deriving Repr, DecidableEq

structure Pool where
  pagesizeShift : ℕ
  minShift : ℕ
  minShift_lt : minShift < pagesizeShift

def Pool.pagesize (p : Pool) : ℕ := 2 ^ p.pagesizeShift
def Pool.minSize (p : Pool) : ℕ := 2 ^ p.minShift

def Pool.slruNqueues (p : Pool) : ℕ := p.pagesizeShift - p.minShift + 1

structure Zone where
  eviction : Eviction
  pool : Pool

inductive Event where
  | treeDelete (n : ℕ)
  | free (n : ℕ)
  | commit (key value : Bytes) (cas : ℕ)
  | remove (hash : ℕ)
  deriving Repr, DecidableEq

/-- `ngx_wa_shm_kv_t` and the blocks reachable from it. Queues are listed from
head to tail; `next` is the name of the next block. -/
structure KvStore where
  node : ℕ → Node
  next : ℕ
  tree : SearchTree.Tree ℕ
  queues : List (List ℕ)
  nelts : ℕ
  log : List Event

abbrev RbtreeOps := Ops ℕ Node Node.hash

def nqueues (zone : Zone) : ℕ :=
  match zone.eviction with
  | .lru => 1
  | .slru => zone.pool.slruNqueues
  | .none => 0

def kvInit (zone : Zone) : KvStore :=
  ⟨fun _ => ⟨0, [], [], 0⟩, 0, .leaf, List.replicate (nqueues zone) [], 0, []⟩

/-! ### Queues -/

/-- The loop `for (s = size - 1; s >>= 1; shift++)` of a 64-bit `s`. -/
def shiftLoop : ℕ → ℕ → ℕ → ℕ
  | 0, _, shift => shift
  | fuel + 1, s, shift => if s >>> 1 = 0 then shift else shiftLoop fuel (s >>> 1) (shift + 1)

def slruIndexForSize (pool : Pool) (size : ℕ) : ℕ :=
  if pool.pagesize / 2 < size then pool.slruNqueues - 1
  else if pool.minSize < size then shiftLoop 64 (size - 1) 1 - pool.minShift
  else 0

def queueForNode (zone : Zone) (n : Node) : ℕ :=
  match zone.eviction with
  | .slru => slruIndexForSize zone.pool (nodeSize + n.key.length + n.value.length)
  | _ => 0

def hasQueues (zone : Zone) : Bool :=
  match zone.eviction with
  | .none => false
  | _ => true

def queueRemove (s : KvStore) (n : ℕ) : KvStore :=
  { s with queues := s.queues.map fun q => q.filter (· ≠ n) }

def queueInsertHead (zone : Zone) (s : KvStore) (n : ℕ) : KvStore :=
  { s with queues := s.queues.modify (queueForNode zone (s.node n)) (n :: ·) }

def nodeQueueRemove (zone : Zone) (s : KvStore) (n : ℕ) : KvStore :=
  if hasQueues zone then queueRemove s n else s

def queueTouch (zone : Zone) (s : KvStore) (n : ℕ) : KvStore :=
  if hasQueues zone then queueInsertHead zone (queueRemove s n) n else s

/-! ### Blocks -/

/-- `ngx_rbtree_delete` followed by `ngx_slab_free_locked`. -/
def releaseNode (rb : RbtreeOps) (s : KvStore) (n : ℕ) : KvStore :=
  { s with tree := rb.delete s.tree n, log := s.log ++ [.treeDelete n, .free n] }

def neltsDec (n : ℕ) : ℕ := if n = 0 then 2 ^ 64 - 1 else n - 1

/-! ### Eviction -/

/-- Queues in the order in which an eviction looks for a node: `lru_queue`, or
the slots from the requested one upwards and then downwards. -/
def scanOrder (zone : Zone) (size : ℕ) : List ℕ :=
  match zone.eviction with
  | .lru => [0]
  | .slru =>
    let start := slruIndexForSize zone.pool size
    List.range' start (zone.pool.slruNqueues - start) ++ (List.range start).reverse
  | .none => []

/-- The node that `lru_expire` or `slru_expire` picks: the tail of the first
non-empty queue; `none` is their `NGX_ABORT`. -/
def expireVictim (zone : Zone) (s : KvStore) (size : ℕ) : Option ℕ :=
  (scanOrder zone size).findSome? fun i => (s.queues.getD i []).getLast?

def queueExpire (rb : RbtreeOps) (s : KvStore) (n : ℕ) : KvStore :=
  let s := releaseNode rb (queueRemove s n) n
  { s with nelts := neltsDec s.nelts, log := s.log ++ [.remove (s.node n).hash] }

/-- The allocation loop of `set`: attempt `i` of `ngx_slab_calloc_locked`
succeeds iff `alloc i`. Every failure evicts a node, so `fuel`, the number of
linked nodes, is never what ends the loop. -/
def allocLoop (rb : RbtreeOps) (zone : Zone) (size : ℕ) (alloc : ℕ → Bool) :
    ℕ → ℕ → KvStore → KvStore × Bool
  | 0, i, s => (s, alloc i)
  | fuel + 1, i, s =>
    if alloc i then (s, true)
    else
      match expireVictim zone s size with
      | none => (s, false)
      | some n => allocLoop rb zone size alloc fuel (i + 1) (queueExpire rb s n)

/-! ### Operations -/

def rbtreeLookup (s : KvStore) (hash : ℕ) : Option ℕ :=
  lookup (fun n => (s.node n).hash) hash s.tree

def casOf (s : KvStore) : Option ℕ → ℕ
  | none => 0
  | some n => (s.node n).cas

/-- What a call hands back: `valueOut` is the node whose `value` is pointed to. -/
structure Answer where
  rc : Rc
  valueOut : Option ℕ
  cas : Option ℕ
  written : Option Bool
  deriving Repr, DecidableEq

def kvGetLocked (zone : Zone) (s : KvStore) (key : Bytes) (keyHash : Option ℕ) : KvStore × Answer :=
  match rbtreeLookup s (keyHash.getD (crc32 key)) with
  | none => (s, ⟨.declined, none, none, none⟩)
  | some n => (queueTouch zone s n, ⟨.ok, some n, some (s.node n).cas, none⟩)

def commitNode (s : KvStore) (n : ℕ) (key value : Bytes) : KvStore × Answer :=
  let cas := ((s.node n).cas + 1) % 2 ^ 32
  ({ s with
      node := Function.update s.node n { s.node n with value := value, cas := cas },
      log := s.log ++ [.commit key value cas] },
    ⟨.ok, none, none, some true⟩)

def insertNode (rb : RbtreeOps) (zone : Zone) (s : KvStore) (n : ℕ) : KvStore :=
  let s := { s with tree := rb.insert s.node s.tree n }
  if hasQueues zone then queueInsertHead zone s n else s

def allocNode (s : KvStore) (x : Node) : KvStore :=
  { s with next := s.next + 1, node := Function.update s.node s.next x }

/-- The replaced node is unlinked and freed; without one the new node is counted. -/
def retireOld (rb : RbtreeOps) (zone : Zone) (s : KvStore) : Option ℕ → KvStore
  | none => { s with nelts := s.nelts + 1 }
  | some o => releaseNode rb (nodeQueueRemove zone s o) o

def linkNode (rb : RbtreeOps) (zone : Zone) (s : KvStore) (key value : Bytes) (old : Option ℕ) :
    KvStore × Answer :=
  let n := s.next
  let s := retireOld rb zone (allocNode s ⟨crc32 key, key, value, casOf s old⟩) old
  commitNode (insertNode rb zone s n) n key value

/-- A set that needs a new block; evictions stay even when it fails. -/
def setAlloc (rb : RbtreeOps) (zone : Zone) (s : KvStore) (key value : Bytes) (old : Option ℕ)
    (alloc : ℕ → Bool) : KvStore × Answer :=
  let size := nodeSize + key.length + value.length
  match allocLoop rb zone size alloc s.queues.flatten.length 0 s with
  | (s, false) => (s, ⟨.error, none, none, none⟩)
  | (s, true) => linkNode rb zone s key value old

/-- A set that reuses the found node, its storage and its stored key. -/
def setInPlace (zone : Zone) (s : KvStore) (n : ℕ) (key value : Bytes) : KvStore × Answer :=
  let s := { s with node := Function.update s.node n { s.node n with value := value } }
  commitNode (queueTouch zone s n) n key value

def deleteNode (rb : RbtreeOps) (zone : Zone) (s : KvStore) (n : ℕ) : KvStore × Answer :=
  let s := releaseNode rb (nodeQueueRemove zone s n) n
  ({ s with nelts := neltsDec s.nelts, log := s.log ++ [.remove (s.node n).hash] },
    ⟨.ok, none, none, some true⟩)

def currentCas (s : KvStore) (hash : ℕ) : ℕ := casOf s (rbtreeLookup s hash)

/-- `ngx_wa_shm_kv_set_locked`; a `NULL` value is a delete. -/
def kvSetLocked (rb : RbtreeOps) (zone : Zone) (s : KvStore) (key : Bytes) (value : Option Bytes)
    (cas : ℕ) (alloc : ℕ → Bool) : KvStore × Answer :=
  if cas ≠ currentCas s (crc32 key) then (s, ⟨.ok, none, none, some false⟩)
  else
    match value, rbtreeLookup s (crc32 key) with
    | none, some n => deleteNode rb zone s n
    | none, none => (s, ⟨.ok, none, none, some false⟩)
    | some v, some n =>
      if (s.node n).value.length < v.length then setAlloc rb zone s key v (some n) alloc
      else setInPlace zone s n key v
    | some v, none => setAlloc rb zone s key v none alloc

inductive Op where
  | get (key : Bytes)
  | set (key : Bytes) (value : Option Bytes) (cas : ℕ) (alloc : ℕ → Bool)

def step (rb : RbtreeOps) (zone : Zone) (s : KvStore) : Op → KvStore × Answer
  | .get key => kvGetLocked zone s key none
  | .set key value cas alloc => kvSetLocked rb zone s key value cas alloc

end NgxWasm.Shm.Kv
