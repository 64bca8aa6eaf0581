import Mathlib.Algebra.Order.Ring.Nat
import Mathlib.Data.List.Basic

/-!
# Return codes and machine words

The nginx return codes of `ngx_core.h` and the object representation of a
`uint32_t` (little-endian, as on the supported targets).
-/

namespace NgxWasm

abbrev Bytes := List UInt8

/-- `ngx_int_t` return codes; `http` stands for the codes from
`NGX_HTTP_SPECIAL_RESPONSE` on. -/
inductive Rc where
  | ok
  | error
  | again
  | busy
  | done
  | declined
  | abort
  | http (status : ℕ)
  deriving Repr, DecidableEq

def u32Bytes (n : ℕ) : Bytes :=
  [UInt8.ofNat n, UInt8.ofNat (n / 2 ^ 8), UInt8.ofNat (n / 2 ^ 16), UInt8.ofNat (n / 2 ^ 24)]

def u32Val : Bytes → ℕ
  | [a, b, c, d] => a.toNat + 2 ^ 8 * b.toNat + 2 ^ 16 * c.toNat + 2 ^ 24 * d.toNat
  | _ => 0

@[simp] theorem u32Bytes_length (n : ℕ) : (u32Bytes n).length = 4 := rfl

theorem u32Val_u32Bytes (n : ℕ) (h : n < 2 ^ 32) : u32Val (u32Bytes n) = n := by
  simp only [u32Bytes, u32Val, UInt8.toNat_ofNat']
  omega

end NgxWasm
