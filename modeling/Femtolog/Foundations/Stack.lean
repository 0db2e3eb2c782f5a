import Mathlib.Data.List.Infix

/-!
# Foundations/Stack — a stack in an array, and folds that may end early

An array and a depth hold a stack: the cells below the depth are its entries, bottom first
(`IsStack`).  A store at the depth pushes, the cell under the depth is the top, and a smaller depth
pops; cells from the depth on do not matter.

A fold of partial steps over a list is defined exactly if no prefix of the list overflows, where
the states reached are known from what has been read (`foldlM_isSome_iff`).
-/

namespace Femtolog

variable {α σ : Type*}

/-! ## Stacks -/

/-- **An array that holds a stack**, `xs` from the top down, in its cells below `depth`. -/
structure IsStack (cells : List α) (depth : ℕ) (xs : List α) : Prop where
  depth_eq : depth = xs.length
  take_eq : cells.take depth = xs.reverse

namespace IsStack

variable {cells xs : List α} {depth : ℕ}

theorem empty (cells : List α) : IsStack cells 0 [] := ⟨rfl, List.take_zero⟩

theorem length_le (h : IsStack cells depth xs) : xs.length ≤ cells.length := by
  have hlen := congrArg List.length h.take_eq
  rw [List.length_take, List.length_reverse] at hlen
  omega

/-- A store at the depth pushes. -/
theorem push (h : IsStack cells depth xs) (hroom : depth < cells.length) (x : α) :
    IsStack (cells.set depth x) (depth + 1) (x :: xs) := by
  refine ⟨congrArg (· + 1) h.depth_eq, ?_⟩
  rw [List.take_add_one, List.take_set_of_le le_rfl, h.take_eq, List.getElem?_set_self hroom,
    List.reverse_cons]
  rfl

/-- The cell under the depth is the top. -/
theorem top (h : IsStack cells depth xs) (hpos : 0 < depth) : cells[depth - 1]? = xs.head? := by
  have hcell : (cells.take depth)[depth - 1]? = cells[depth - 1]? :=
    List.getElem?_take_of_lt (Nat.sub_lt hpos Nat.one_pos)
  rw [← hcell, h.take_eq, h.depth_eq, ← List.length_reverse, ← List.getLast?_eq_getElem?,
    List.getLast?_reverse]

/-- A smaller depth pops. -/
theorem pop (h : IsStack cells depth xs) : IsStack cells (depth - 1) xs.tail := by
  refine ⟨by rw [List.length_tail, h.depth_eq], ?_⟩
  have htake : (cells.take depth).take (depth - 1) = cells.take (depth - 1) := by
    rw [List.take_take, Nat.min_eq_left (Nat.sub_le depth 1)]
  rw [← htake, h.take_eq, h.depth_eq, ← List.length_reverse, ← List.dropLast_eq_take,
    List.dropLast_reverse]

end IsStack

/-! ## Folds -/

variable {step : σ → α → Option σ}

/-- **A fold is defined exactly if no prefix overflows**: a step from a state that `reaches` what
has been read reaches one character more if this `fits`, and is undefined if it does not. -/
theorem foldlM_isSome_iff (reaches : σ → List α → Prop) (fits : List α → Prop) {xs : List α} {s : σ}
    (hstep : ∀ {s read x}, reaches s read → read ++ [x] <+: xs → fits (read ++ [x]) →
      ∃ s', step s x = some s' ∧ reaches s' (read ++ [x]))
    (hstuck : ∀ {s read x}, reaches s read → read ++ [x] <+: xs → ¬fits (read ++ [x]) →
      step s x = none)
    (hstart : reaches s []) (hfits : fits []) :
    (xs.foldlM step s).isSome ↔ ∀ read, read <+: xs → fits read := by
  suffices hsuffix : ∀ (rest read : List α) (s : σ), read ++ rest = xs → reaches s read →
      fits read → ((rest.foldlM step s).isSome ↔ ∀ more, more <+: rest → fits (read ++ more)) by
    exact hsuffix xs [] s rfl hstart hfits
  intro rest
  induction rest with
  | nil =>
    intro read s _ _ hread
    refine iff_of_true rfl fun more hmore => ?_
    rwa [List.prefix_nil.mp hmore, List.append_nil]
  | cons x rest ih =>
    intro read s hxs hreaches hread
    have hassoc : ∀ more, read ++ [x] ++ more = read ++ x :: more := fun more => by
      rw [List.append_assoc, List.singleton_append]
    have hread' : read ++ [x] <+: xs := ⟨rest, (hassoc rest).trans hxs⟩
    rw [List.foldlM_cons]
    by_cases hx : fits (read ++ [x])
    · obtain ⟨s', hs', hreaches'⟩ := hstep hreaches hread' hx
      rw [hs']
      refine (ih (read ++ [x]) s' ((hassoc rest).trans hxs) hreaches' hx).trans
        ⟨fun h more hmore => ?_, fun h more hmore => ?_⟩
      · obtain rfl | ⟨more, rfl, hmore'⟩ := List.prefix_cons_iff.mp hmore
        · rwa [List.append_nil]
        · exact hassoc more ▸ h more hmore'
      · exact hassoc more ▸ h (x :: more) ((List.prefix_cons_inj x).mpr hmore)
    · rw [hstuck hreaches hread' hx]
      exact iff_of_false Bool.false_ne_true fun h => hx (h [x] ⟨rest, rfl⟩)

end Femtolog
