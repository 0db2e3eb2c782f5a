import Mathlib.Data.List.Basic
import Mathlib.Tactic.Linarith

/-!
# Foundations/Memory — a block of memory, written and read by ranges

A block is the list of its cells.  `splice m i xs` overwrites the cells from `i` on by `xs` and
`slice m i n` reads `n` cells from `i` on: a `memcpy` into the block and one out of it.  Both are
used in bounds only, where `splice` keeps the length and agrees with `m` outside the range.
-/

namespace Femtolog

variable {α : Type*}

/-- The block `m` with the cells from `i` on overwritten by `xs`. -/
def splice (m : List α) (i : ℕ) (xs : List α) : List α :=
  m.take i ++ xs ++ m.drop (i + xs.length)

/-- The `n` cells of `m` from `i` on. -/
def slice (m : List α) (i n : ℕ) : List α := (m.drop i).take n

/-! ## Writing -/

theorem length_splice {m xs : List α} {i : ℕ} (h : i + xs.length ≤ m.length) :
    (splice m i xs).length = m.length := by
  simp only [splice, List.length_append, List.length_take, List.length_drop]
  omega

@[simp] theorem splice_nil (m : List α) (i : ℕ) : splice m i [] = m := by
  simp [splice]

/-- **What a write leaves at a cell** — the new content inside the range, the old one outside. -/
theorem getElem?_splice {m xs : List α} {i : ℕ} (h : i + xs.length ≤ m.length) (j : ℕ) :
    (splice m i xs)[j]? = if i ≤ j ∧ j < i + xs.length then xs[j - i]? else m[j]? := by
  have hi : (m.take i).length = i := by rw [List.length_take]; omega
  rw [splice, List.append_assoc]
  by_cases h1 : j < i
  · rw [List.getElem?_append_left (by omega), List.getElem?_take_of_lt h1, if_neg (by omega)]
  · rw [List.getElem?_append_right (by omega), hi]
    by_cases h2 : j < i + xs.length
    · rw [List.getElem?_append_left (by omega), if_pos (by omega)]
    · rw [List.getElem?_append_right (by omega), List.getElem?_drop, if_neg (by omega)]
      exact congrArg (fun k => m[k]?) (by omega)

/-- Two writes, one right after the other, are one write. -/
theorem splice_splice {m xs ys : List α} {i : ℕ} (h : i + xs.length + ys.length ≤ m.length) :
    splice (splice m i xs) (i + xs.length) ys = splice m i (xs ++ ys) := by
  have h1 : (splice m i xs).length = m.length := length_splice (by omega)
  refine List.ext_getElem? fun j => ?_
  rw [getElem?_splice (by omega), getElem?_splice (by omega),
    getElem?_splice (by rw [List.length_append]; omega), List.length_append]
  by_cases hx : i ≤ j ∧ j < i + xs.length
  · rw [if_neg (by omega), if_pos hx, if_pos (by omega), List.getElem?_append_left (by omega)]
  · by_cases hy : i + xs.length ≤ j ∧ j < i + xs.length + ys.length
    · rw [if_pos hy, if_pos (by omega), List.getElem?_append_right (by omega)]
      exact congrArg (fun k => ys[k]?) (by omega)
    · rw [if_neg hy, if_neg hx, if_neg (by omega)]

/-- A write at the front of the block. -/
theorem splice_zero (m xs : List α) : splice m 0 xs = xs ++ m.drop xs.length := by
  simp [splice]

/-! ## Reading -/

theorem length_slice {m : List α} {i n : ℕ} (h : i + n ≤ m.length) : (slice m i n).length = n := by
  rw [slice, List.length_take, List.length_drop]
  omega

theorem getElem?_slice (m : List α) (i n j : ℕ) :
    (slice m i n)[j]? = if j < n then m[i + j]? else none := by
  rw [slice, List.getElem?_take, List.getElem?_drop]

@[simp] theorem slice_zero (m : List α) (i : ℕ) : slice m i 0 = [] := by
  simp [slice]

/-- Two reads, one right after the other, are one read. -/
theorem slice_append_slice (m : List α) (i a b : ℕ) :
    slice m i a ++ slice m (i + a) b = slice m i (a + b) := by
  rw [slice, slice, slice, List.take_add, List.drop_drop]

/-- Reading the part of a concatenation that is its middle piece. -/
theorem slice_append_left {xs ys zs : List α} {i n : ℕ} (hi : i = xs.length)
    (hn : n = ys.length) : slice (xs ++ (ys ++ zs)) i n = ys := by
  subst hi hn
  rw [slice, List.drop_left, List.take_left]

/-- A read that ends before an appended part does not see it. -/
theorem slice_append_of_le {xs ys : List α} {i n : ℕ} (h : i + n ≤ xs.length) :
    slice (xs ++ ys) i n = slice xs i n := by
  rw [slice, slice, List.drop_append_of_le_length (by omega),
    List.take_append_of_le_length (by rw [List.length_drop]; omega)]

end Femtolog
