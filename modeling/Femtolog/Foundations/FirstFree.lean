import Mathlib.Data.Fintype.Card
import Mathlib.Data.Finset.Range

/-!
# Foundations/FirstFree — trying one name after the other

`firstFree taken limit k` counts up from `k` until an index is not `taken`, and gives up at
`limit`.  Where the names tried are all different and fewer than `limit` are taken, it finds one
that is free (`exists_firstFree_of_injective`).
-/

namespace Femtolog

/-- The first index from `k` on that is not taken, if there is one below `limit`. -/
def firstFree (taken : ℕ → Bool) (limit k : ℕ) : Option ℕ :=
  if k < limit then if taken k then firstFree taken limit (k + 1) else some k else none
termination_by limit - k

variable {taken : ℕ → Bool} {limit k : ℕ}

/-- What is found is free. -/
theorem eq_false_of_firstFree {j : ℕ} (h : firstFree taken limit k = some j) : taken j = false := by
  fun_induction firstFree taken limit k with
  | case1 k _ _ ih => exact ih h
  | case2 k _ hfree => exact Option.some_inj.mp h ▸ Bool.eq_false_iff.mpr hfree
  | case3 k _ => cases h

/-- The search gives up only where everything is taken. -/
theorem taken_of_firstFree_eq_none (h : firstFree taken limit k = none) :
    ∀ j, k ≤ j → j < limit → taken j = true := by
  fun_induction firstFree taken limit k with
  | case1 k _ htaken ih =>
    intro j hk hj
    rcases eq_or_lt_of_le hk with rfl | hlt
    · exact htaken
    · exact ih h j hlt hj
  | case2 k _ _ => cases h
  | case3 k hk => exact fun j hkj hj => absurd (hkj.trans_lt hj) hk

/-- **Among different names one is free** if fewer than the limit are taken. -/
theorem exists_firstFree_of_injective {α : Type*} {name : ℕ → α} (hname : Function.Injective name)
    {s : Finset α} (htaken : ∀ k, taken k = true → name k ∈ s) (hcard : s.card < limit) :
    ∃ k, firstFree taken limit 0 = some k := by
  refine Option.ne_none_iff_exists'.mp fun h => ?_
  have hall : ∀ k ∈ Finset.range limit, name k ∈ s := fun k hk =>
    htaken k (taken_of_firstFree_eq_none h k (Nat.zero_le k) (Finset.mem_range.mp hk))
  have hle := Finset.card_le_card_of_injOn name hall hname.injOn
  rw [Finset.card_range] at hle
  omega

end Femtolog
