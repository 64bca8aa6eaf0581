import NgxWasm.Http.HeaderSet
import NgxWasm.Lib.Overlay

/-!
# Escaping a string (ngx_http_wasm_escape.c)

`ngx_http_wasm_escape` with its five tables, its counting loop and its writing loop,
and `ngx_http_copy_escaped` (`ngx_http_wasm_util.c`, 16-41). A block of the pool is a
function from offsets, so that a write past its end is a write like any other.
-/

namespace NgxWasm.Http.Escape

set_option maxRecDepth 8192

open NgxWasm NgxWasm.Lib.Overlay
open NgxWasm.Http.Headers (EscapeKind escape hexDigit)
open NgxWasm.Http.HeaderSet (byte_forall escape_forall)

def isHeader : EscapeKind → Bool
  | .headerName | .headerValue => true
  | .uri | .uriComponent | .args => false

def countEscapes (kind : EscapeKind) : Bytes → ℕ → ℕ
  | [], n => n
  | c :: src, n => countEscapes kind src (if kind.escapes c then n + 1 else n)

/-- The second loop, from `dst` on; `dst` after it is the second component. -/
def writeEscaped (kind : EscapeKind) : Bytes → (ℕ → UInt8) → ℕ → (ℕ → UInt8) × ℕ
  | [], mem, dst => (mem, dst)
  | c :: src, mem, dst =>
    if kind.escapes c then
      let percent := Function.update mem dst 37
      let high := Function.update percent (dst + 1) (hexDigit (c >>> 4).toNat)
      let low := Function.update high (dst + 2) (hexDigit (c &&& 0xf).toNat)
      writeEscaped kind src low (dst + 3)
    else
      writeEscaped kind src (Function.update mem dst c) (dst + 1)

/-- An `ngx_str_t`. -/
structure Str where
  len : ℕ
  data : Option (ℕ → UInt8)

def Str.bytes (s : Str) : Bytes :=
  match s.data with
  | none => []
  | some data => (List.range s.len).map data

/-- What `ngx_pnalloc` gives is `block`. The string is returned, or NULL, and `dst` is
as the call leaves it. -/
def copyEscaped (kind : EscapeKind) (block : Option (ℕ → UInt8)) (dst : Str) : Bool × Str :=
  let escape := countEscapes kind dst.bytes 0
  if 0 < escape then
    let len := dst.len + 2 * escape
    match block with
    | none => (false, { len := len, data := none })
    | some mem =>
      let written := (writeEscaped kind dst.bytes mem 0).1
      (true, { len := len, data := some (Function.update written len 0) })
  else
    (true, dst)

/-! ### What the two loops do -/

def unit (kind : EscapeKind) (c : UInt8) : Bytes :=
  if kind.escapes c then [37, hexDigit (c >>> 4).toNat, hexDigit (c &&& 0xf).toNat] else [c]

theorem escape_cons (kind : EscapeKind) (c : UInt8) (s : Bytes) :
    escape kind (c :: s) = unit kind c ++ escape kind s := by
  rw [escape, unit]
  split <;> rfl

theorem countEscapes_eq (kind : EscapeKind) (s : Bytes) (n : ℕ) :
    countEscapes kind s n = n + s.countP kind.escapes := by
  induction s generalizing n with
  | nil => rfl
  | cons c s ih =>
    rw [countEscapes, ih]
    by_cases hc : kind.escapes c = true
    · rw [if_pos hc, List.countP_cons_of_pos hc]
      omega
    · rw [if_neg hc, List.countP_cons_of_neg hc]

theorem unit_length (kind : EscapeKind) (c : UInt8) :
    (unit kind c).length = if kind.escapes c then 3 else 1 := by
  unfold unit
  split <;> rfl

theorem escape_length (kind : EscapeKind) (s : Bytes) :
    (escape kind s).length = s.length + 2 * s.countP kind.escapes := by
  induction s with
  | nil => rfl
  | cons c s ih =>
    rw [escape_cons, List.length_append, ih, unit_length, List.length_cons]
    by_cases hc : kind.escapes c = true
    · rw [if_pos hc, List.countP_cons_of_pos hc]
      omega
    · rw [if_neg hc, List.countP_cons_of_neg hc]
      omega

theorem escape_of_none {kind : EscapeKind} {s : Bytes} (h : s.countP kind.escapes = 0) :
    escape kind s = s := by
  induction s with
  | nil => rfl
  | cons c s ih =>
    have hall := List.countP_eq_zero.mp h
    have hc : ¬ kind.escapes c = true := hall c (List.mem_cons_self ..)
    have hs : s.countP kind.escapes = 0 :=
      List.countP_eq_zero.mpr fun d hd => hall d (List.mem_cons_of_mem _ hd)
    rw [escape_cons, ih hs, unit, if_neg hc]
    rfl

theorem update_eq_apply (mem : ℕ → UInt8) (a : ℕ) (c : UInt8) :
    Function.update mem a c = apply mem ⟨a, [c]⟩ := by
  funext b
  by_cases hb : b = a
  · subst hb
    have hread := apply_inside mem (⟨b, [c]⟩ : Patch UInt8) (i := 0) rfl
    rw [Function.update_self]
    exact hread.symm
  · rw [Function.update_of_ne hb]
    refine (apply_outside ?_).symm
    intro j y hj hbj
    obtain ⟨hlt, -⟩ := List.getElem?_eq_some_iff.mp hj
    have hzero : j < 1 := hlt
    apply hb
    rw [hbj]
    show a + j = a
    omega

/-- The writing loop lays down the escaped bytes one after another and nothing else. -/
theorem writeEscaped_eq (kind : EscapeKind) (s : Bytes) (mem : ℕ → UInt8) (dst : ℕ) :
    writeEscaped kind s mem dst =
      (apply mem ⟨dst, escape kind s⟩, dst + (escape kind s).length) := by
  induction s generalizing mem dst with
  | nil =>
    rw [writeEscaped, show escape kind [] = [] from rfl, apply_nil]
    rfl
  | cons c s ih =>
    have hrest : apply (apply mem ⟨dst, unit kind c⟩) ⟨dst + (unit kind c).length, escape kind s⟩ =
        apply mem ⟨dst, escape kind (c :: s)⟩ := by
      rw [apply_append, ← escape_cons]
    have hlen : (escape kind (c :: s)).length = (unit kind c).length + (escape kind s).length := by
      rw [escape_cons, List.length_append]
    by_cases hc : kind.escapes c = true
    · have hunit : unit kind c =
          ([37] : Bytes) ++ [hexDigit (c >>> 4).toNat] ++ [hexDigit (c &&& 0xf).toNat] := by
        rw [unit, if_pos hc]
        rfl
      have hthree : (unit kind c).length = 3 := by rw [hunit]; rfl
      have hwrite : apply mem ⟨dst, unit kind c⟩ =
          apply (apply (apply mem ⟨dst, [37]⟩) ⟨dst + 1, [hexDigit (c >>> 4).toNat]⟩)
            ⟨dst + 2, [hexDigit (c &&& 0xf).toNat]⟩ := by
        rw [hunit, ← apply_append, ← apply_append]
        rfl
      rw [writeEscaped, if_pos hc]
      simp only [update_eq_apply]
      rw [ih, ← hwrite, ← hrest, hlen, hthree, Nat.add_assoc]
    · have hunit : unit kind c = [c] := by rw [unit, if_neg hc]
      rw [writeEscaped, if_neg hc, update_eq_apply, ih, ← hrest, hlen, hunit, Nat.add_assoc]
      rfl

/-! ### Header names and values -/

/-- The percent sign and the digits are characters of a header name and of a value. -/
theorem escape_unescaped {kind : EscapeKind} (h : isHeader kind = true) (s : Bytes) :
    ∀ c ∈ escape kind s, kind.escapes c = false := by
  have hhex : ∀ n < 16, kind.escapes (hexDigit n) = false := by
    cases kind
    · exact absurd h (by decide)
    · exact absurd h (by decide)
    · exact absurd h (by decide)
    · decide
    · decide
  have hpercent : kind.escapes 37 = false := by
    cases kind
    · exact absurd h (by decide)
    · exact absurd h (by decide)
    · exact absurd h (by decide)
    · decide
    · decide
  exact escape_forall hpercent hhex (fun c hc => hc) s

theorem countP_escape {kind : EscapeKind} (h : isHeader kind = true) (s : Bytes) :
    (escape kind s).countP kind.escapes = 0 := by
  rw [List.countP_eq_zero]
  intro c hc
  rw [escape_unescaped h s c hc]
  decide

theorem header_char {kind : EscapeKind} (h : isHeader kind = true) {c : UInt8}
    (hc : kind.escapes c = false) : c ≠ 13 ∧ c ≠ 10 ∧ c ≠ 0 := by
  have hall : ∀ c : UInt8, kind.escapes c = false → c ≠ 13 ∧ c ≠ 10 ∧ c ≠ 0 := by
    cases kind
    · exact absurd h (by decide)
    · exact absurd h (by decide)
    · exact absurd h (by decide)
    · exact byte_forall (by decide)
    · exact byte_forall (by decide)
  exact hall c hc

theorem name_char : ∀ c : UInt8, EscapeKind.headerName.escapes c = false → c ≠ 58 :=
  byte_forall (by decide)

/-! ### Decoding -/

/-- The value of a hexadecimal digit, of either case. -/
def hexValue (c : UInt8) : Option UInt8 :=
  if 48 ≤ c ∧ c ≤ 57 then some (c - 48)
  else if 65 ≤ c ∧ c ≤ 70 then some (c - 55)
  else if 97 ≤ c ∧ c ≤ 102 then some (c - 87)
  else none

def decodeAt (c a b : UInt8) : Option UInt8 :=
  if c = 37 then
    match hexValue a, hexValue b with
    | some high, some low => some (16 * high + low)
    | _, _ => none
  else
    none

/-- Percent-decoding; what is no escape stands for itself. -/
def percentDecode : Bytes → Bytes
  | c :: a :: b :: s =>
    match decodeAt c a b with
    | some d => d :: percentDecode s
    | none => c :: percentDecode (a :: b :: s)
  | s => s

theorem percentDecode_plain {c : UInt8} (h : c ≠ 37) (s : Bytes) :
    percentDecode (c :: s) = c :: percentDecode s := by
  match s with
  | [] => rfl
  | [_] => rfl
  | a :: b :: s =>
    have hnone : decodeAt c a b = none := if_neg h
    rw [percentDecode, hnone]

theorem percentDecode_hex (c : UInt8) (s : Bytes) :
    percentDecode (37 :: hexDigit (c >>> 4).toNat :: hexDigit (c &&& 0xf).toNat :: s) =
      c :: percentDecode s := by
  have hdecode : ∀ c : UInt8,
      decodeAt 37 (hexDigit (c >>> 4).toNat) (hexDigit (c &&& 0xf).toNat) = some c :=
    byte_forall (by decide)
  rw [percentDecode, hdecode c]

/-- Outside of header names and values the percent sign is escaped itself. -/
theorem percent_escapes {kind : EscapeKind} (h : isHeader kind = false) :
    kind.escapes 37 = true := by
  cases kind
  · decide
  · decide
  · decide
  · exact absurd h (by decide)
  · exact absurd h (by decide)

theorem percentDecode_escape {kind : EscapeKind} (h : isHeader kind = false) (s : Bytes) :
    percentDecode (escape kind s) = s := by
  induction s with
  | nil => rfl
  | cons c s ih =>
    rw [escape_cons]
    by_cases hc : kind.escapes c = true
    · rw [unit, if_pos hc]
      exact (percentDecode_hex c _).trans (congrArg (List.cons c) ih)
    · have hplain : c ≠ 37 := by
        intro heq
        rw [heq] at hc
        exact hc (percent_escapes h)
      rw [unit, if_neg hc]
      exact (percentDecode_plain hplain _).trans (congrArg (List.cons c) ih)

/-! ### The copy -/

theorem Str.bytes_length {s : Str} {data : ℕ → UInt8} (h : s.data = some data) :
    s.bytes.length = s.len := by
  simp only [Str.bytes, h, List.length_map, List.length_range]

theorem map_range_apply (mem : ℕ → UInt8) (s : Bytes) :
    (List.range s.length).map (apply mem ⟨0, s⟩) = s := by
  apply List.ext_getElem?
  intro i
  by_cases hi : i < s.length
  · have hread := apply_inside mem (⟨0, s⟩ : Patch UInt8) (List.getElem?_eq_getElem hi)
    rw [Nat.zero_add] at hread
    simp only [List.getElem?_map, List.getElem?_range hi, Option.map_some, hread,
      List.getElem?_eq_getElem hi]
  · rw [List.getElem?_eq_none (by simpa using hi), List.getElem?_eq_none (by omega)]

/-- A string the counting loop finds nothing in. -/
theorem copyEscaped_of_none {kind : EscapeKind} (block : Option (ℕ → UInt8)) {s : Str}
    (h : s.bytes.countP kind.escapes = 0) : copyEscaped kind block s = (true, s) := by
  have hzero : ¬ 0 < countEscapes kind s.bytes 0 := by
    rw [countEscapes_eq, h]
    decide
  rw [copyEscaped, if_neg hzero]

structure Escaped (kind : EscapeKind) (s r : Bytes) : Prop where
  length : r.length = s.length + 2 * countEscapes kind s 0
  clean : isHeader kind = true → ∀ c ∈ r, c ≠ 13 ∧ c ≠ 10 ∧ c ≠ 0
  name : kind = .headerName → ∀ c ∈ r, c ≠ 58
  again : isHeader kind = true →
    ∀ block (str : Str), str.bytes = r → copyEscaped kind block str = (true, str)
  decoded : isHeader kind = false → percentDecode r = s

theorem escaped_escape (kind : EscapeKind) (s : Bytes) : Escaped kind s (escape kind s) where
  length := by
    rw [escape_length, countEscapes_eq]
    omega
  clean := by
    intro h c hc
    exact header_char h (escape_unescaped h s c hc)
  name := by
    intro h c hc
    subst h
    exact name_char c (escape_unescaped rfl s c hc)
  again := by
    intro h block str hstr
    apply copyEscaped_of_none
    rw [hstr]
    exact countP_escape h s
  decoded := by
    intro h
    exact percentDecode_escape h s

/-- A block of memory `mem` after the copy: `len` bytes of the writing loop, the same
whatever the block held, a zero, and from there on what the block held. -/
structure Written (kind : EscapeKind) (s : Bytes) (mem written : ℕ → UInt8) (len : ℕ) :
    Prop where
  stops : (writeEscaped kind s mem 0).2 = len
  filled : ∀ other i, i < len → written i = (writeEscaped kind s other 0).1 i
  beyond : ∀ i, len ≤ i → (writeEscaped kind s mem 0).1 i = mem i
  zero : written len = 0
  rest : ∀ i, len < i → written i = mem i

theorem apply_beyond (mem : ℕ → UInt8) (s : Bytes) {i : ℕ} (h : s.length ≤ i) :
    apply mem ⟨0, s⟩ i = mem i := by
  apply apply_outside
  intro j y hj hij
  obtain ⟨hlt, -⟩ := List.getElem?_eq_some_iff.mp hj
  have hj : j < s.length := hlt
  rw [Nat.zero_add] at hij
  omega

theorem written_update (kind : EscapeKind) (s : Bytes) (mem : ℕ → UInt8) :
    Written kind s mem
      (Function.update (writeEscaped kind s mem 0).1 (escape kind s).length 0)
      (escape kind s).length where
  stops := by
    rw [writeEscaped_eq, Nat.zero_add]
  filled := by
    intro other i hi
    have hread : ∀ m : ℕ → UInt8,
        apply m ⟨0, escape kind s⟩ (0 + i) = (escape kind s)[i] := fun m =>
      apply_inside m (⟨0, escape kind s⟩ : Patch UInt8) (List.getElem?_eq_getElem hi)
    rw [Nat.zero_add] at hread
    rw [Function.update_of_ne (by omega), writeEscaped_eq, writeEscaped_eq]
    exact (hread mem).trans (hread other).symm
  beyond := by
    intro i hi
    rw [writeEscaped_eq]
    exact apply_beyond mem _ hi
  zero := Function.update_self ..
  rest := by
    intro i hi
    rw [Function.update_of_ne (by omega), writeEscaped_eq]
    exact apply_beyond mem _ (by omega)

/-- The string comes back as it was, or in a block of its own that the writing loop
filled to the end, its bytes being the escape of the kind; only a refused block gives
NULL. -/
theorem copy_escaped_exact (kind : EscapeKind) (block : Option (ℕ → UInt8)) (dst : Str) :
    match copyEscaped kind block dst with
    | (false, _) => 0 < countEscapes kind dst.bytes 0 ∧ block = none
    | (true, res) =>
      Escaped kind dst.bytes res.bytes ∧
        (countEscapes kind dst.bytes 0 = 0 ∧ res = dst ∨
          ∃ mem written, block = some mem ∧ res.data = some written ∧
            res.len = dst.len + 2 * countEscapes kind dst.bytes 0 ∧
            Written kind dst.bytes mem written res.len) := by
  by_cases hcount : 0 < countEscapes kind dst.bytes 0
  · rw [copyEscaped, if_pos hcount]
    cases block with
    | none => exact ⟨hcount, rfl⟩
    | some mem =>
      have hlen : dst.bytes.length = dst.len := by
        cases hdata : dst.data with
        | none =>
          have hempty : dst.bytes = [] := by rw [Str.bytes, hdata]
          rw [hempty] at hcount
          exact absurd hcount (Nat.lt_irrefl 0)
        | some data => exact Str.bytes_length hdata
      have hescape : dst.len + 2 * countEscapes kind dst.bytes 0 =
          (escape kind dst.bytes).length := by
        rw [escape_length, countEscapes_eq, hlen]
        omega
      have hbytes : (List.range (escape kind dst.bytes).length).map
          (Function.update (writeEscaped kind dst.bytes mem 0).1
            (escape kind dst.bytes).length 0) = escape kind dst.bytes := by
        rw [writeEscaped_eq]
        refine Eq.trans (List.map_congr_left ?_) (map_range_apply mem _)
        intro i hi
        have hi := List.mem_range.mp hi
        exact Function.update_of_ne (by omega) ..
      simp only [hescape]
      apply And.intro
      · show Escaped kind dst.bytes ((List.range (escape kind dst.bytes).length).map _)
        rw [hbytes]
        exact escaped_escape kind dst.bytes
      · right
        exact ⟨mem, _, rfl, rfl, trivial, written_update kind dst.bytes mem⟩
  · have hzero : dst.bytes.countP kind.escapes = 0 := by
      rw [countEscapes_eq] at hcount
      omega
    rw [copyEscaped_of_none block hzero]
    refine ⟨?_, Or.inl ⟨by omega, rfl⟩⟩
    have hesc := escaped_escape kind dst.bytes
    rwa [escape_of_none hzero] at hesc

end NgxWasm.Http.Escape
