import Mathlib.Data.List.Basic
import Mathlib.Order.Basic

/-!
# Foundations/Barrier — numbered requests for progress

Requests are numbered in the order in which they are issued, and each asks for progress up to a
mark.  `Met marks level n` says that progress has got to `level`, which meets the first `n` of them.
Progress and new requests keep this; a server that has met all marks may answer up to any number
that has been issued.
-/

namespace Femtolog

variable {α : Type*} [Preorder α]

/-- **The first `n` requests are met** by progress up to `level`. -/
structure Met (marks : List α) (level : α) (n : ℕ) : Prop where
  issued : n ≤ marks.length
  le_level : ∀ m ∈ marks.take n, m ≤ level

namespace Met

variable {marks : List α} {level level' : α} {n : ℕ}

theorem zero (marks : List α) (level : α) : Met marks level 0 :=
  ⟨Nat.zero_le _, nofun⟩

/-- Progress keeps requests met. -/
theorem mono (h : Met marks level n) (hle : level ≤ level') : Met marks level' n :=
  ⟨h.issued, fun m hm => (h.le_level m hm).trans hle⟩

/-- A new request leaves the earlier ones met. -/
theorem append (h : Met marks level n) (m : α) : Met (marks ++ [m]) level n := by
  constructor
  · rw [List.length_append]
    exact Nat.le_add_right_of_le h.issued
  · rw [List.take_append_of_le_length h.issued]
    exact h.le_level

/-- Progress up to all marks meets what has been issued. -/
theorem of_forall_le (hall : ∀ m ∈ marks, m ≤ level) (hn : n ≤ marks.length) :
    Met marks level n :=
  ⟨hn, fun m hm => hall m (List.mem_of_mem_take hm)⟩

/-- The mark of a request that is met. -/
theorem le_of_getElem? (h : Met marks level n) {i : ℕ} (hi : i < n) {m : α}
    (hm : marks[i]? = some m) : m ≤ level := by
  refine h.le_level m ?_
  rw [← List.getElem?_take_of_lt hi] at hm
  exact List.mem_of_getElem? hm

/-- If all requests are met, so is the last. -/
theorem le_of_getLast? (h : Met marks level marks.length) {m : α}
    (hm : marks.getLast? = some m) : m ≤ level := by
  have hmem := List.mem_of_getLast? hm
  rw [← List.take_length (l := marks)] at hmem
  exact h.le_level m hmem

end Met

end Femtolog
