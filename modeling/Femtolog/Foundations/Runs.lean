import Mathlib.Tactic.SplitIfs

/-!
# Foundations/Runs — runs of a transition system, and the invariant rule

A system is a partial step function `step : σ → α → Option σ` over states and actions: an action is
enabled in a state when the step is defined.  `Reaches step guard s₀ s` says that `s` is reached
from `s₀` by steps each of which meets `guard` in the state before it.  An unguarded run takes
`guard` true everywhere; a guard states under which circumstances a run is considered.
-/

namespace Femtolog

variable {σ α : Type*}

/-- **`s` is reached from `s₀`** by steps that each meet `guard` in the state before the step. -/
inductive Reaches (step : σ → α → Option σ) (guard : σ → α → Prop) (s₀ : σ) : σ → Prop
  | refl : Reaches step guard s₀ s₀
  | tail {s s' : σ} {a : α} (hrun : Reaches step guard s₀ s) (hguard : guard s a)
      (hstep : step s a = some s') : Reaches step guard s₀ s'

namespace Reaches

variable {step : σ → α → Option σ} {guard guard' : σ → α → Prop} {s₀ s s' : σ}

/-- **The invariant rule** — what holds at the start and is kept by every step of the run holds at
its end. -/
theorem invariant {I : σ → Prop} (h : Reaches step guard s₀ s) (hinit : I s₀)
    (hkeep : ∀ {s s' : σ} {a : α}, I s → guard s a → step s a = some s' → I s') : I s := by
  induction h with
  | refl => exact hinit
  | tail _ hguard hstep ih => exact hkeep ih hguard hstep

/-- Runs compose. -/
theorem trans (h : Reaches step guard s₀ s) (h' : Reaches step guard s s') :
    Reaches step guard s₀ s' := by
  induction h' with
  | refl => exact h
  | tail _ hguard hstep ih => exact ih.tail hguard hstep

/-- A run that meets a guard meets a weaker one. -/
theorem mono (h : Reaches step guard s₀ s) (hg : ∀ s a, guard s a → guard' s a) :
    Reaches step guard' s₀ s := by
  induction h with
  | refl => exact .refl
  | tail _ hguard hstep ih => exact ih.tail (hg _ _ hguard) hstep

/-- **The simulation rule** — where each step is matched by steps of a second system (by none of
them, too), each of its runs is matched by a run of that one. -/
theorem simulate {τ β : Type*} {step' : τ → β → Option τ} {guard' : τ → β → Prop}
    {R : σ → τ → Prop} {t₀ : τ} (h : Reaches step guard s₀ s) (hinit : R s₀ t₀)
    (hmatch : ∀ {s s' : σ} {a : α} {t : τ}, R s t → guard s a → step s a = some s' →
      ∃ t', Reaches step' guard' t t' ∧ R s' t') :
    ∃ t, Reaches step' guard' t₀ t ∧ R s t := by
  induction h with
  | refl => exact ⟨t₀, .refl, hinit⟩
  | tail _ hguard hstep ih =>
    obtain ⟨t, hrun, hR⟩ := ih
    obtain ⟨t', hrun', hR'⟩ := hmatch hR hguard hstep
    exact ⟨t', hrun.trans hrun', hR'⟩

end Reaches

/-! ## Executing a schedule -/

/-- The state a schedule of actions leads to, if each of them passes the test `ok` and is enabled in
turn. -/
def execute (step : σ → α → Option σ) (ok : σ → α → Bool) : σ → List α → Option σ
  | s, [] => some s
  | s, a :: as => if ok s a then (step s a).bind fun s' => execute step ok s' as else none

/-- **An executed schedule is a run.** -/
theorem Reaches.of_execute {step : σ → α → Option σ} {ok : σ → α → Bool} {guard : σ → α → Prop}
    (hok : ∀ {s a}, ok s a = true → guard s a) {s s' : σ} {as : List α}
    (h : execute step ok s as = some s') : Reaches step guard s s' := by
  induction as generalizing s with
  | nil =>
    obtain rfl : s = s' := Option.some.inj h
    exact .refl
  | cons a as ih =>
    rw [execute] at h
    split_ifs at h with ha
    obtain ⟨t, hstep, hrest⟩ := Option.bind_eq_some_iff.mp h
    have hfirst : Reaches step guard s t := Reaches.refl.tail (hok ha) hstep
    exact hfirst.trans (ih hrest)

end Femtolog
