import Mathlib.Data.Nat.Notation
import Mathlib.Tactic.TypeStar

/-!
# Foundations/Budget — programs that run out of a resource

What a program does with requests is described by a total step on a state of another kind, and there
each request has a cost.  The program `Follows` the description within a budget if it carries out
every request the budget has room for, and is undefined at one it has no room for.  A list of
requests is carried out if and only if the budget has room for all of them together
(`Follows.isSome_iff`), and then the program stands where the description does (`Follows.of_run`).
-/

namespace Femtolog

variable {σ τ α : Type*}

/-- What a list of requests costs, each in the state that those before it lead to. -/
def totalCost (next : τ → α → τ) (cost : τ → α → ℕ) : τ → List α → ℕ
  | _, [] => 0
  | t, a :: as => cost t a + totalCost next cost (next t a) as

/-- **A program follows a description within a budget.**  `R s t used` says that the program in
state `s` stands where the description does in `t`, with `used` of the budget used. -/
structure Follows (step : σ → α → Option σ) (next : τ → α → τ) (cost : τ → α → ℕ) (budget : ℕ)
    (R : σ → τ → ℕ → Prop) : Prop where
  le : ∀ {s t used}, R s t used → used ≤ budget
  exists_step : ∀ {s t used} (a : α), R s t used → used + cost t a ≤ budget →
    ∃ s', step s a = some s' ∧ R s' (next t a) (used + cost t a)
  step_eq_none : ∀ {s t used a}, R s t used → budget < used + cost t a → step s a = none

namespace Follows

variable {step : σ → α → Option σ} {next : τ → α → τ} {cost : τ → α → ℕ} {budget used : ℕ}
  {R : σ → τ → ℕ → Prop} {s s' : σ} {t : τ} {as : List α}

/-- A step that is carried out has had room. -/
theorem of_step (h : Follows step next cost budget R) {a : α} (hR : R s t used)
    (hstep : step s a = some s') : R s' (next t a) (used + cost t a) := by
  rcases Nat.lt_or_ge budget (used + cost t a) with hlt | hle
  · rw [h.step_eq_none hR hlt] at hstep
    cases hstep
  · obtain ⟨s₁, hstep₁, hR₁⟩ := h.exists_step a hR hle
    obtain rfl := Option.some.inj (hstep.symm.trans hstep₁)
    exact hR₁

/-- **A run that is carried out stands where the description does.** -/
theorem of_run (h : Follows step next cost budget R) (hR : R s t used)
    (hrun : as.foldlM step s = some s') :
    R s' (as.foldl next t) (used + totalCost next cost t as) := by
  induction as generalizing s t used with
  | nil =>
    obtain rfl := Option.some.inj hrun
    exact hR
  | cons a as ih =>
    obtain ⟨s₁, hstep, hrest⟩ := Option.bind_eq_some_iff.mp hrun
    rw [totalCost, ← Nat.add_assoc]
    exact ih (h.of_step hR hstep) hrest

/-- **A list of requests is carried out** if and only if the budget has room for all of them. -/
theorem isSome_iff (h : Follows step next cost budget R) (hR : R s t used) :
    (as.foldlM step s).isSome ↔ used + totalCost next cost t as ≤ budget := by
  induction as generalizing s t used with
  | nil => exact iff_of_true rfl (h.le hR)
  | cons a as ih =>
    rw [List.foldlM_cons, totalCost, ← Nat.add_assoc]
    rcases Nat.lt_or_ge budget (used + cost t a) with hlt | hle
    · rw [h.step_eq_none hR hlt]
      exact iff_of_false Bool.false_ne_true fun hle => by omega
    · obtain ⟨s₁, hstep, hR₁⟩ := h.exists_step a hR hle
      rw [hstep]
      exact ih hR₁

end Follows

end Femtolog
