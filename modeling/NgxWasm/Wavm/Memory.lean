import NgxWasm.Basic
import NgxWasm.Lib.Overlay
import Mathlib.Logic.Function.Basic
import Mathlib.Tactic.Common

/-!
# The guest's linear memory seen from the host

`ngx_wavm.h`: `ngx_wavm_memory_lift` (184-223), `ngx_wavm_memory_memcpy`
(226-241) and `ngx_wavm_memory_cpymem` (244-253); the macros
`NGX_WAVM_HOST_LIFT` and `NGX_WAVM_HOST_LIFT_SLICE` of `ngx_wavm_host.h`
(87-116). Growth may give a memory another area of host memory; an address
lifted before stays in the old one.
-/

namespace NgxWasm.Wavm

open NgxWasm NgxWasm.Lib

/-- A host address: an area of host memory and an offset in it. -/
structure HostPtr where
  area : ℕ
  off : ℕ
  deriving Repr, DecidableEq

structure Memory where
  /-- `ngx_wavm_memory_base`. -/
  base : ℕ
  /-- `ngx_wavm_memory_data_size`. -/
  size : ℕ
  bounded : size ≤ 2 ^ 32
  /-- What each area holds. -/
  heap : ℕ → ℕ → UInt8

inductive Lifted where
  | bad
  | null
  | at (q : HostPtr)
  deriving Repr, DecidableEq

/-- `uint32_t` arithmetic throughout; only the sum is compared with a `size_t`. -/
def memoryLift (mem : Memory) (p size align : BitVec 32) : Lifted :=
  if p = 0 then
    -- NULL pointers are only valid for empty slices
    if size ≠ 0 then .bad else .null
  else if p + size < p ∨ mem.size < (p + size).toNat then .bad
  else if 1 < align ∧ p &&& (align - 1) ≠ 0 then .bad
  else .at ⟨mem.base, p.toNat⟩

def Memory.store (mem : Memory) (q : HostPtr) (bytes : Bytes) : Memory :=
  { mem with
    heap := Function.update mem.heap q.area (Overlay.apply (mem.heap q.area) ⟨q.off, bytes⟩) }

/-- `none` for a returned 0. The length is cut to 32 bits by the call. -/
def memoryMemcpy (mem : Memory) (p : BitVec 32) (buf : Bytes) : Option Memory :=
  match memoryLift mem p (BitVec.ofNat 32 buf.length) 1 with
  | .bad => none
  | .null => some mem
  | .at q => some (mem.store q buf)

/-- Where a host function takes the length of a slice from. -/
inductive Length where
  /-- `size_t len = args[i].of.i32`. -/
  | arg (i32 : BitVec 32)
  /-- `uint32_t len = args[i].of.i32`. -/
  | uintArg (i32 : BitVec 32)
  /-- A `size_t` of the host. -/
  | host (n : BitVec 64)
  deriving Repr, DecidableEq

/-- The length the host function goes on with. -/
def Length.used : Length → BitVec 64
  | .arg i32 => i32.signExtend 64
  | .uintArg i32 => i32.setWidth 64
  | .host n => n

structure Slice where
  data : Option HostPtr
  len : BitVec 64
  deriving Repr, DecidableEq

/-- `NGX_WAVM_HOST_LIFT_SLICE`: `none` where the host function returns
`NGX_WAVM_BAD_USAGE` with a trap. -/
def hostLiftSlice (mem : Memory) (p : BitVec 32) (len : Length) : Option Slice :=
  match memoryLift mem p (len.used.setWidth 32) 1 with
  | .bad => none
  | .null => some ⟨none, len.used⟩
  | .at q => some ⟨some q, len.used⟩

/-- `NGX_WAVM_HOST_LIFT` of a 32-bit type: `sizeof` and `__alignof__` are 4. -/
def hostLift (mem : Memory) (p : BitVec 32) : Option HostPtr :=
  match memoryLift mem p 4 4 with
  | .at q => some q
  | _ => none

end NgxWasm.Wavm
