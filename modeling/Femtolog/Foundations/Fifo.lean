import Mathlib.Data.List.Basic

/-!
# Foundations/Fifo — a bounded first-in first-out store, and its ledger

The store is the list of what it contains, oldest first.  `push` is refused when the store would
grow beyond its bound, `pop` and `peek` when it contains less than asked.  A `Ledger` also records
everything ever pushed and popped, and carries the law of conservation: what was popped, followed
by what is contained, is what was pushed.
-/

namespace Femtolog.Fifo

variable {α : Type*}

/-- `xs` behind the contents `s`, unless that is more than `c`. -/
def push (c : ℕ) (s xs : List α) : Option (List α) :=
  if s.length + xs.length ≤ c then some (s ++ xs) else none

/-- The first `n` of the contents `s`, unless there are fewer. -/
def peek (s : List α) (n : ℕ) : Option (List α) :=
  if n ≤ s.length then some (s.take n) else none

/-! ## The ledger -/

/-- **What a store has been given, has given back, and contains** — in balance. -/
structure Ledger (α : Type*) where
  pushed : List α
  popped : List α
  contents : List α
  balance : popped ++ contents = pushed

namespace Ledger

/-- The ledger of an empty store. -/
def empty : Ledger α := ⟨[], [], [], rfl⟩

/-- Book a push. -/
def push (l : Ledger α) (xs : List α) : Ledger α where
  pushed := l.pushed ++ xs
  popped := l.popped
  contents := l.contents ++ xs
  balance := by rw [← l.balance, List.append_assoc]

/-- Book a pop of `n`. -/
def pop (l : Ledger α) (n : ℕ) : Ledger α where
  pushed := l.pushed
  popped := l.popped ++ l.contents.take n
  contents := l.contents.drop n
  balance := by rw [List.append_assoc, List.take_append_drop, l.balance]

/-- **What was popped is a prefix of what was pushed.** -/
theorem popped_le_pushed (l : Ledger α) : l.popped <+: l.pushed := ⟨l.contents, l.balance⟩

/-- The contents are what was pushed and not popped yet. -/
theorem contents_eq (l : Ledger α) : l.contents = l.pushed.drop l.popped.length := by
  rw [← l.balance, List.drop_left]

end Ledger

end Femtolog.Fifo
