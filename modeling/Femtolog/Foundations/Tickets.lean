import Mathlib.Data.List.Basic
import Mathlib.Tactic.Linarith

/-!
# Foundations/Tickets — claims on a line of positions, in the order in which they were made

A claimant takes a range of an unbounded line of positions: `size i` of them from `start i` on.  The
outstanding claims, oldest first, are *along* the line from `c` to `e` when `e` is `c` plus all
their sizes and each claim starts where the ones before it leave off, up to a relation `R`: exactly
there when the claims tile the range (`Tiled`), there or beyond when claims in between may have been
given up (`Lined`).

Claims are made at the end, served at the front, and given up anywhere: `Lined` survives all three,
`Tiled` only a claim given up at the end.
-/

namespace Femtolog

variable {ι : Type}

/-- The claims `L` lie along the line from `c` to `e`. -/
def Along (R : ℕ → ℕ → Prop) (start size : ι → ℕ) : ℕ → List ι → ℕ → Prop
  | c, [], e => c = e
  | c, i :: L, e => R c (start i) ∧ Along R start size (c + size i) L e

/-- Each claim starts where the ones before it leave off, or later. -/
abbrev Lined (start size : ι → ℕ) : ℕ → List ι → ℕ → Prop := Along (· ≤ ·) start size

/-- **The claims tile the range**: each starts where the one before it ends. -/
abbrev Tiled (start size : ι → ℕ) : ℕ → List ι → ℕ → Prop := Along (· = ·) start size

namespace Along

variable {R : ℕ → ℕ → Prop} {start size start' size' : ι → ℕ} {c d e : ℕ} {i : ι} {L : List ι}

/-- **A claim made at the end.** -/
theorem snoc (h : Along R start size c L e) (hi : R e (start i)) :
    Along R start size c (L ++ [i]) (e + size i) := by
  induction L generalizing c with
  | nil =>
    obtain rfl : c = e := h
    exact ⟨hi, rfl⟩
  | cons j L ih => exact ⟨h.1, ih h.2⟩

/-- Only the outstanding claims matter. -/
theorem congr (h : Along R start size c L e)
    (hsame : ∀ j ∈ L, start' j = start j ∧ size' j = size j) : Along R start' size' c L e := by
  induction L generalizing c with
  | nil => exact h
  | cons j L ih =>
    obtain ⟨hstart, hsize⟩ := hsame j List.mem_cons_self
    refine ⟨hstart.symm ▸ h.1, ?_⟩
    rw [hsize]
    exact ih h.2 fun k hk => hsame k (List.mem_cons_of_mem j hk)

/-- The line does not end before it begins. -/
theorem le (h : Along R start size c L e) : c ≤ e := by
  induction L generalizing c with
  | nil => exact Nat.le_of_eq h
  | cons j L ih => exact (Nat.le_add_right c (size j)).trans (ih h.2)

end Along

/-! ## Claims that may have been given up -/

namespace Lined

variable {start size : ι → ℕ} {c d e : ℕ} {i : ι} {L front back : List ι}

/-- A line may be taken to begin, and end, earlier. -/
theorem shift (h : Lined start size (c + d) L (e + d)) : Lined start size c L e := by
  induction L generalizing c with
  | nil => exact Nat.add_right_cancel h
  | cons j L ih =>
    refine ⟨(Nat.le_add_right c d).trans h.1, ih ?_⟩
    have hrest := h.2
    rwa [Nat.add_right_comm] at hrest

/-- No claim starts before the line does. -/
theorem le_start (h : Lined start size c L e) (hi : i ∈ L) : c ≤ start i := by
  induction L generalizing c with
  | nil => cases hi
  | cons j L ih =>
    rcases List.mem_cons.mp hi with rfl | hi
    · exact h.1
    · exact (Nat.le_add_right c (size j)).trans (ih h.2 hi)

/-- The line is at least as long as any one claim. -/
theorem size_le (h : Lined start size c L e) (hi : i ∈ L) : c + size i ≤ e := by
  induction L generalizing c with
  | nil => cases hi
  | cons j L ih =>
    rcases List.mem_cons.mp hi with rfl | hi
    · exact Along.le h.2
    · have := ih h.2 hi
      omega

/-- **A claim given up**: the ones behind it keep their starts, and the line is shorter. -/
theorem erase [DecidableEq ι] (h : Lined start size c L e) (hi : i ∈ L) :
    Lined start size c (L.erase i) (e - size i) := by
  induction L generalizing c with
  | nil => cases hi
  | cons j L ih =>
    by_cases hji : j = i
    · subst hji
      rw [List.erase_cons_head]
      have hle := Along.le h.2
      refine shift (d := size j) ?_
      rw [Nat.sub_add_cancel (by omega)]
      exact h.2
    · have hi' : i ∈ L := (List.mem_cons.mp hi).resolve_left fun heq => hji heq.symm
      rw [List.erase_cons_tail (by simpa using hji)]
      exact ⟨h.1, ih h.2 hi'⟩

/-- **The claim that starts where the line does is the oldest one.** -/
theorem eq_head (h : Lined start size c L e) (hi : i ∈ L) (hpos : ∀ j ∈ L, 0 < size j)
    (hstart : start i = c) : ∃ back, L = i :: back := by
  cases L with
  | nil => cases hi
  | cons j L =>
    rcases List.mem_cons.mp hi with rfl | hi
    · exact ⟨L, rfl⟩
    · have hle := le_start h.2 hi
      have hj := hpos j List.mem_cons_self
      omega

/-- **The oldest claim served**: the line goes on behind it. -/
theorem serve [DecidableEq ι] (h : Lined start size c L e) (hi : i ∈ L)
    (hpos : ∀ j ∈ L, 0 < size j) (hstart : start i = c) :
    Lined start size (c + size i) (L.erase i) e := by
  obtain ⟨back, rfl⟩ := h.eq_head hi hpos hstart
  rw [List.erase_cons_head]
  exact h.2

end Lined

/-! ## Claims that tile -/

namespace Tiled

variable {start size : ι → ℕ} {c e p : ℕ} {i : ι} {L : List ι}

theorem lined (h : Tiled start size c L e) : Lined start size c L e := by
  induction L generalizing c with
  | nil => exact h
  | cons j L ih => exact ⟨Nat.le_of_eq h.1, ih h.2⟩

/-- Every claim ends within the line. -/
theorem end_le (h : Tiled start size c L e) (hi : i ∈ L) : start i + size i ≤ e := by
  induction L generalizing c with
  | nil => cases hi
  | cons j L ih =>
    rcases List.mem_cons.mp hi with rfl | hi
    · exact h.1 ▸ Along.le h.2
    · exact ih h.2 hi

/-- **No position of the line is left out.** -/
theorem cover (h : Tiled start size c L e) (hc : c ≤ p) (he : p < e) :
    ∃ i ∈ L, start i ≤ p ∧ p < start i + size i := by
  induction L generalizing c with
  | nil =>
    obtain rfl : c = e := h
    omega
  | cons j L ih =>
    have hj := h.1
    by_cases hp : p < c + size j
    · exact ⟨j, List.mem_cons_self, by omega, by omega⟩
    · obtain ⟨i, hi, h1, h2⟩ := ih h.2 (Nat.le_of_not_lt hp)
      exact ⟨i, List.mem_cons_of_mem j hi, h1, h2⟩

/-- A claim is the first, or starts where another one ends. -/
theorem start_eq (h : Tiled start size c L e) (hi : i ∈ L) :
    start i = c ∨ ∃ j ∈ L, start j + size j = start i := by
  induction L generalizing c with
  | nil => cases hi
  | cons j L ih =>
    rcases List.mem_cons.mp hi with rfl | hi
    · exact .inl h.1.symm
    · rcases ih h.2 hi with hstart | ⟨k, hk, hend⟩
      · exact .inr ⟨j, List.mem_cons_self, by rw [hstart, h.1]⟩
      · exact .inr ⟨k, List.mem_cons_of_mem j hk, hend⟩

/-- **A claim given up at the end.** -/
theorem eraseLast [DecidableEq ι] (h : Tiled start size c L e) (hi : i ∈ L)
    (hpos : ∀ j ∈ L, 0 < size j) (hend : start i + size i = e) :
    Tiled start size c (L.erase i) (start i) := by
  induction L generalizing c with
  | nil => cases hi
  | cons j L ih =>
    by_cases hji : j = i
    · subst hji
      rw [List.erase_cons_head]
      cases L with
      | nil => exact h.1
      | cons k L =>
        have hk := end_le h.2 List.mem_cons_self
        have hstart := h.2.1
        have hk0 := hpos k (by simp)
        have hj := h.1
        omega
    · have hi' : i ∈ L := (List.mem_cons.mp hi).resolve_left fun heq => hji heq.symm
      rw [List.erase_cons_tail (by simpa using hji)]
      exact ⟨h.1, ih h.2 hi' fun k hk => hpos k (List.mem_cons_of_mem j hk)⟩

/-- **The oldest claim served.** -/
theorem serve [DecidableEq ι] (h : Tiled start size c L e) (hi : i ∈ L)
    (hpos : ∀ j ∈ L, 0 < size j) (hstart : start i = c) :
    Tiled start size (c + size i) (L.erase i) e := by
  obtain ⟨back, rfl⟩ := h.lined.eq_head hi hpos hstart
  rw [List.erase_cons_head]
  exact h.2

/-- While positions are claimed, some claim starts where the line does. -/
theorem exists_first (h : Tiled start size c L e) (hi : i ∈ L) : ∃ j ∈ L, start j = c := by
  cases L with
  | nil => cases hi
  | cons j L => exact ⟨j, List.mem_cons_self, h.1.symm⟩

end Tiled

end Femtolog
