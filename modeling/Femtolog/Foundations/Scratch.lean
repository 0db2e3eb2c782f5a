import Mathlib.Order.Basic
import Femtolog.Foundations.Memory

/-!
# Foundations/Scratch — arrays filled by copies that check no bound

A `Scratch` is an array and the position up to which it has been filled.  `memcpy` copies to that
position and moves it on, whatever the size of the array: a copy past the end makes the array
longer, and nothing makes it shorter again.  So the length tells whether every copy so far has
stayed inside (`length_memcpy_eq_iff`).
-/

namespace Femtolog

/-- An array with the position up to which it has been filled. -/
@[ext] structure Scratch (α : Type*) where
  cells : List α
  pos : ℕ
  pos_le : pos ≤ cells.length

namespace Scratch

variable {α : Type*}

/-- The start of an array. -/
def start (cells : List α) : Scratch α := ⟨cells, 0, Nat.zero_le _⟩

/-- What has been filled in. -/
def filled (d : Scratch α) : List α := d.cells.take d.pos

theorem length_splice_max {m xs : List α} {i : ℕ} (h : i ≤ m.length) :
    (splice m i xs).length = max m.length (i + xs.length) := by
  simp only [splice, List.length_append, List.length_take, List.length_drop]
  omega

/-- Copy `xs` to the position and move it on. -/
def memcpy (d : Scratch α) (xs : List α) : Scratch α where
  cells := splice d.cells d.pos xs
  pos := d.pos + xs.length
  pos_le := by
    rw [length_splice_max d.pos_le]
    exact le_max_right _ _

@[simp] theorem pos_memcpy (d : Scratch α) (xs : List α) :
    (d.memcpy xs).pos = d.pos + xs.length := rfl

theorem length_memcpy (d : Scratch α) (xs : List α) :
    (d.memcpy xs).cells.length = max d.cells.length (d.pos + xs.length) :=
  length_splice_max d.pos_le

/-- **A copy stays inside the array** if and only if it ends there. -/
theorem length_memcpy_eq_iff (d : Scratch α) (xs : List α) :
    (d.memcpy xs).cells.length = d.cells.length ↔ d.pos + xs.length ≤ d.cells.length := by
  rw [length_memcpy]
  exact max_eq_left_iff

@[simp] theorem filled_memcpy (d : Scratch α) (xs : List α) :
    (d.memcpy xs).filled = d.filled ++ xs := by
  have hlen : (d.cells.take d.pos ++ xs).length = d.pos + xs.length := by
    rw [List.length_append, List.length_take, Nat.min_eq_left d.pos_le]
  change (splice d.cells d.pos xs).take (d.pos + xs.length) = d.cells.take d.pos ++ xs
  rw [splice, ← hlen, List.take_left]

/-- **Copies one after the other are one copy.** -/
@[simp] theorem memcpy_memcpy (d : Scratch α) (xs ys : List α) :
    (d.memcpy xs).memcpy ys = d.memcpy (xs ++ ys) := by
  refine Scratch.ext ?_ (by simp [memcpy, Nat.add_assoc])
  have hlen : (d.cells.take d.pos ++ xs).length = d.pos + xs.length := by
    rw [List.length_append, List.length_take, Nat.min_eq_left d.pos_le]
  have htake : (splice d.cells d.pos xs).take (d.pos + xs.length) = d.cells.take d.pos ++ xs := by
    rw [splice, ← hlen, List.take_left]
  have hdrop : (splice d.cells d.pos xs).drop (d.pos + xs.length)
      = d.cells.drop (d.pos + xs.length) := by
    rw [splice, ← hlen, List.drop_left]
  change splice (splice d.cells d.pos xs) (d.pos + xs.length) ys = splice d.cells d.pos (xs ++ ys)
  rw [splice, htake, ← List.drop_drop, hdrop, List.drop_drop, splice, List.length_append,
    List.append_assoc, List.append_assoc, List.append_assoc, List.append_assoc, Nat.add_assoc]

/-- Take the position back to the start. -/
def rewind (d : Scratch α) : Scratch α := start d.cells

@[simp] theorem filled_rewind (d : Scratch α) : d.rewind.filled = [] := rfl

@[simp] theorem memcpy_nil (d : Scratch α) : d.memcpy [] = d :=
  Scratch.ext (splice_nil d.cells d.pos) rfl

end Scratch

end Femtolog
