import Mathlib.Data.List.Rotate

/-!
# Circular regions of a list

A region of a ring that starts at `p` is a prefix of the list rotated by `p`.
`blit` is a plain copy at an offset; the lemmas say what a copy at `p`, with or
without a wrap at the end of the list, does to the list rotated by `p`.
-/

namespace NgxWasm.Lib.Ring

variable {α : Type*}

/-- Copy of `src` over `dst` at offset `off`. -/
def blit (dst : List α) (off : ℕ) (src : List α) : List α :=
  dst.take off ++ src ++ dst.drop (off + src.length)

theorem blit_length (dst : List α) (off : ℕ) (src : List α)
    (h : off + src.length ≤ dst.length) : (blit dst off src).length = dst.length := by
  simp only [blit, List.length_append, List.length_take, List.length_drop]
  omega

theorem blit_rotate (buf xs : List α) (p : ℕ) (h : p + xs.length ≤ buf.length) :
    (blit buf p xs).rotate p = xs ++ (buf.rotate p).drop xs.length := by
  have hp : (buf.take p).length = p := by simp only [List.length_take]; omega
  have hlen := blit_length buf p xs h
  have hle : xs.length ≤ (buf.drop p).length := by rw [List.length_drop]; omega
  rw [List.rotate_eq_drop_append_take (by omega), List.rotate_eq_drop_append_take (by omega)]
  rw [List.drop_append_of_le_length hle, List.drop_drop]
  simp only [blit, List.append_assoc]
  rw [List.drop_left' hp, List.take_left' hp, List.append_assoc]

theorem blit_wrap_rotate (buf xs : List α) (p : ℕ) (hp : p < buf.length)
    (hw : buf.length - p ≤ xs.length) (hx : xs.length ≤ buf.length) :
    (blit (blit buf p (xs.take (buf.length - p))) 0 (xs.drop (buf.length - p))).rotate p =
      xs ++ (buf.rotate p).drop xs.length := by
  have ht : (xs.take (buf.length - p)).length = buf.length - p := by
    simp only [List.length_take]; omega
  have hd : (xs.drop (buf.length - p)).length = xs.length - (buf.length - p) := List.length_drop
  have hp' : (buf.take p).length = p := by simp only [List.length_take]; omega
  -- the first copy keeps `take p` and replaces everything behind it
  have hfirst : blit buf p (xs.take (buf.length - p)) =
      buf.take p ++ xs.take (buf.length - p) := by
    have hend : buf.drop (p + (xs.take (buf.length - p)).length) = [] :=
      List.drop_eq_nil_of_le (by omega)
    simp only [blit, hend, List.append_nil]
  have hsecond : blit (blit buf p (xs.take (buf.length - p))) 0 (xs.drop (buf.length - p)) =
      xs.drop (buf.length - p) ++ (buf.take p).drop (xs.length - (buf.length - p)) ++
        xs.take (buf.length - p) := by
    have hle : xs.length - (buf.length - p) ≤ (buf.take p).length := by omega
    rw [hfirst]
    simp only [blit, List.take_zero, List.nil_append, Nat.zero_add, hd]
    rw [List.drop_append_of_le_length hle, List.append_assoc]
  have hhead : (xs.drop (buf.length - p) ++
      (buf.take p).drop (xs.length - (buf.length - p))).length = p := by
    simp only [List.length_append, List.length_drop, hp']
    omega
  rw [hsecond, List.rotate_eq_drop_append_take (by
    simp only [List.length_append, ht, hhead] at hhead ⊢; omega)]
  rw [List.drop_left' hhead, List.take_left' hhead, ← List.append_assoc,
    List.take_append_drop, List.rotate_eq_drop_append_take (by omega)]
  rw [List.drop_append, List.drop_drop]
  have hend : buf.drop (p + xs.length) = [] := List.drop_eq_nil_of_le (by omega)
  rw [hend, List.nil_append, List.length_drop]

theorem rotate_write_behind (buf buf' xs : List α) (p q u : ℕ)
    (hu : u + xs.length ≤ buf.length)
    (hq : buf.rotate q = (buf.rotate p).rotate u) (hq' : buf'.rotate q = (buf'.rotate p).rotate u)
    (hw : buf'.rotate q = xs ++ (buf.rotate q).drop xs.length) :
    buf'.rotate p = (buf.rotate p).take u ++ xs ++ (buf.rotate p).drop (u + xs.length) := by
  have hx : (buf.rotate p).length = buf.length := List.length_rotate _ _
  rw [hq] at hw
  generalize buf.rotate p = x at hw hx
  have htake : (x.take u).length = u := by simp only [List.length_take]; omega
  have hle : xs.length ≤ (x.drop u).length := by rw [List.length_drop]; omega
  have hsum : u ≤ (x.take u ++ (xs ++ x.drop (u + xs.length))).length := by
    rw [List.length_append, htake]; omega
  apply List.rotate_injective u
  show (buf'.rotate p).rotate u = (x.take u ++ xs ++ x.drop (u + xs.length)).rotate u
  rw [← hq', hw, List.rotate_eq_drop_append_take (l := x) (by omega),
    List.drop_append_of_le_length hle, List.drop_drop, List.append_assoc,
    List.rotate_eq_drop_append_take hsum, List.drop_left' htake, List.take_left' htake,
    List.append_assoc]

theorem take_rotate_wrap (buf : List α) (p n : ℕ) (hp : p < buf.length)
    (hn : buf.length - p ≤ n) (hn' : n ≤ buf.length) :
    (buf.drop p).take (buf.length - p) ++ buf.take (n - (buf.length - p)) =
      (buf.rotate p).take n := by
  have hd : (buf.drop p).length = buf.length - p := List.length_drop
  have hall : (buf.drop p).take (buf.length - p) = buf.drop p :=
    List.take_of_length_le (by omega)
  rw [List.rotate_eq_drop_append_take (by omega), List.take_append, hd, hall,
    List.take_of_length_le (i := n) (by omega), List.take_take]
  congr 2
  omega

theorem take_rotate_straight (buf : List α) (p n : ℕ) (hp : p < buf.length)
    (hn : n < buf.length - p) : (buf.drop p).take n = (buf.rotate p).take n := by
  rw [List.rotate_eq_drop_append_take (by omega),
    List.take_append_of_le_length (by rw [List.length_drop]; omega)]

theorem take_rotate_behind (buf xs ys : List α) (p : ℕ)
    (hle : xs.length + ys.length ≤ buf.length)
    (h : (buf.rotate p).take (xs.length + ys.length) = xs ++ ys) :
    (buf.rotate ((p + xs.length) % buf.length)).take ys.length = ys := by
  have hx : (buf.rotate p).length = buf.length := List.length_rotate _ _
  rw [List.rotate_mod, ← List.rotate_rotate]
  generalize buf.rotate p = x at h hx
  rw [List.rotate_eq_drop_append_take (by omega),
    List.take_append_of_le_length (by rw [List.length_drop]; omega)]
  have hd := congrArg (List.drop xs.length) h
  rwa [List.drop_take, List.drop_left, Nat.add_sub_cancel_left] at hd

end NgxWasm.Lib.Ring
