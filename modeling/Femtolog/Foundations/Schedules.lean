import Mathlib.Order.WellFounded
import Femtolog.Foundations.Runs

/-!
# Foundations/Schedules — threads that take turns, and what fairness brings about

A schedule offers one action after the other to a partial step function; an action that is not
enabled when its turn comes is skipped.  A fair schedule gives every thread turns without end.  The
rule for progress (`Fair.eventually`): a rank that no step raises, and that goes down whenever the
thread it waits for takes its turn, brings about the goal.
-/

namespace Femtolog

variable {σ α ι : Type*}

/-- The state after each turn of a schedule. -/
def turns (step : σ → α → Option σ) (schedule : ℕ → α) (s : σ) : ℕ → σ
  | 0 => s
  | n + 1 =>
    (step (turns step schedule s n) (schedule n)).getD (turns step schedule s n)

/-- **A fair schedule** gives every thread turns without end. -/
def Fair (turn : ι → α → Prop) (schedule : ℕ → α) : Prop :=
  ∀ i n, ∃ m, n ≤ m ∧ turn i (schedule m)

/-- The schedule of two actions in turn. -/
def alternate (a b : α) (n : ℕ) : α := if n % 2 = 0 then a else b

/-- **Two actions in turn are fair** to the threads that one of them is a turn of. -/
theorem fair_alternate {turn : ι → α → Prop} {a b : α} (h : ∀ i, turn i a ∨ turn i b) :
    Fair turn (alternate a b) := by
  intro i n
  rcases h i with ha | hb
  · refine ⟨2 * n, by omega, ?_⟩
    rwa [alternate, if_pos (Nat.mul_mod_right 2 n)]
  · refine ⟨2 * n + 1, by omega, ?_⟩
    rwa [alternate, if_neg (by omega)]

variable {step : σ → α → Option σ} {schedule : ℕ → α} {s : σ} {n : ℕ}

theorem turns_of_some {s' : σ} (h : step (turns step schedule s n) (schedule n) = some s') :
    turns step schedule s (n + 1) = s' := by
  rw [turns, h, Option.getD_some]

theorem turns_of_none (h : step (turns step schedule s n) (schedule n) = none) :
    turns step schedule s (n + 1) = turns step schedule s n := by
  rw [turns, h, Option.getD_none]

/-- The turns of a schedule are a run. -/
theorem reaches_turns (step : σ → α → Option σ) (schedule : ℕ → α) (s : σ) (n : ℕ) :
    Reaches step (fun _ _ => True) s (turns step schedule s n) := by
  induction n with
  | zero => exact .refl
  | succ n ih =>
    cases hstep : step (turns step schedule s n) (schedule n) with
    | none => rwa [turns_of_none hstep]
    | some s' =>
      rw [turns_of_some hstep]
      exact ih.tail trivial hstep

/-- **The progress rule** — as long as the goal is not reached, no step raises the rank, or lets it
stand with another thread to wait for; and a turn of that thread is not skipped and lowers the
rank. -/
theorem Fair.eventually {β : Type*} [Preorder β] [WellFoundedLT β] {turn : ι → α → Prop}
    (hfair : Fair turn schedule) (I goal : σ → Prop) (rank : σ → β) (next : σ → ι)
    (hstep : ∀ {s s' : σ} {a : α}, I s → ¬goal s → step s a = some s' →
      goal s' ∨ I s' ∧ (rank s' < rank s ∨ rank s' = rank s ∧ next s' = next s))
    (hturn : ∀ {s : σ} {a : α}, I s → ¬goal s → turn (next s) a →
      ∃ s', step s a = some s' ∧ (goal s' ∨ rank s' < rank s))
    (hs : I s) : ∃ n, goal (turns step schedule s n) := by
  have hfrom : ∀ (r : β) (n : ℕ), I (turns step schedule s n) →
      rank (turns step schedule s n) = r → ∃ n, goal (turns step schedule s n) := by
    intro r
    induction r using WellFoundedLT.induction with
    | ind r ihRank =>
      intro n hI hr
      obtain ⟨m, hle, hm⟩ := hfair (next (turns step schedule s n)) n
      -- up to the turn of the thread waited for, the rank may stand
      obtain ⟨d, rfl⟩ := Nat.exists_eq_add_of_le hle
      clear hle
      induction d generalizing n with
      | zero =>
        by_cases hgoal : goal (turns step schedule s n)
        · exact ⟨n, hgoal⟩
        obtain ⟨s', hs', hnext⟩ := hturn hI hgoal hm
        rw [Nat.add_zero] at hs'
        have hkept := hstep hI hgoal hs'
        rw [← turns_of_some hs'] at hnext hkept
        rcases hnext with hreached | hlt
        · exact ⟨_, hreached⟩
        rcases hkept with hreached | ⟨hI', -⟩
        · exact ⟨_, hreached⟩
        · exact ihRank _ (hr ▸ hlt) (n + 1) hI' rfl
      | succ d ihWait =>
        by_cases hgoal : goal (turns step schedule s n)
        · exact ⟨n, hgoal⟩
        rw [← Nat.add_assoc, Nat.add_right_comm] at hm
        cases hs' : step (turns step schedule s n) (schedule n) with
        | none =>
          have hsame := turns_of_none hs'
          exact ihWait (n + 1) (hsame ▸ hI) (hsame ▸ hr) (hsame ▸ hm)
        | some s' =>
          have hkept := hstep hI hgoal hs'
          rw [← turns_of_some hs'] at hkept
          rcases hkept with hreached | ⟨hI', hlt | ⟨heq, hnext⟩⟩
          · exact ⟨_, hreached⟩
          · exact ihRank _ (hr ▸ hlt) (n + 1) hI' rfl
          · exact ihWait (n + 1) hI' (heq.trans hr) (hnext ▸ hm)
  exact hfrom _ 0 hs rfl

/-- **What comes about comes about by a step** — and what every step keeps until then holds before
it. -/
theorem exists_last_step {I goal : σ → Prop}
    (hstep : ∀ {s s' : σ} {a : α}, I s → ¬goal s → step s a = some s' → goal s' ∨ I s')
    (hs : I s) (hstart : ¬goal s) (hgoal : goal (turns step schedule s n)) :
    ∃ m t a, I t ∧ ¬goal t ∧ step t a = some (turns step schedule s m) ∧
      goal (turns step schedule s m) := by
  have hfrom : ∀ n, (I (turns step schedule s n) ∧ ¬goal (turns step schedule s n)) ∨
      ∃ m t a, I t ∧ ¬goal t ∧ step t a = some (turns step schedule s m) ∧
        goal (turns step schedule s m) := by
    intro n
    induction n with
    | zero => exact .inl ⟨hs, hstart⟩
    | succ n ih =>
      rcases ih with ⟨hI, hopen⟩ | hlast
      · cases hs' : step (turns step schedule s n) (schedule n) with
        | none =>
          rw [turns_of_none hs']
          exact .inl ⟨hI, hopen⟩
        | some s' =>
          have hkept := hstep hI hopen hs'
          obtain rfl := turns_of_some hs'
          by_cases hreached : goal (turns step schedule s (n + 1))
          · exact .inr ⟨n + 1, _, _, hI, hopen, hs', hreached⟩
          · exact .inl ⟨hkept.resolve_left hreached, hreached⟩
      · exact .inr hlast
  exact (hfrom n).resolve_left fun h => h.2 hgoal

end Femtolog
