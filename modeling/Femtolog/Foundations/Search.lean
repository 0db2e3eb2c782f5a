import Mathlib.Data.List.Infix

/-!
# Foundations/Search — words in a text

`firstOccurrence d text` is the least index at which the word `d` is read in `text`.  It cuts the
text into what stands before the word, which does not hold it, the word, and what follows
(`exists_split_of_firstOccurrence`); a text without such an index does not hold the word
(`not_infix_of_firstOccurrence`).

`lastOccurrence c text` is the greatest index at which the text has the letter `c`; behind it there
is none.

`Cut d text tokens closed` is a text cut at the places of a word into tokens free of it, `closed`
where the text ends in one of these places.  The tokens and the word give the text back
(`Cut.intercalate_append`).
-/

namespace Femtolog

variable {α : Type*} [DecidableEq α]

/-- **The first place of a word**: the least index at which the text goes on with it. -/
def firstOccurrence (d : List α) : List α → Option ℕ
  | [] => if d = [] then some 0 else none
  | c :: cs => if d <+: c :: cs then some 0 else (firstOccurrence d cs).map (· + 1)

/-- A text without a first place does not hold the word. -/
theorem not_infix_of_firstOccurrence {d text : List α} (h : firstOccurrence d text = none) :
    ¬d <:+: text := by
  induction text with
  | nil =>
    rw [List.infix_nil]
    rintro rfl
    exact absurd h (by simp [firstOccurrence])
  | cons c cs ih =>
    rw [firstOccurrence] at h
    split_ifs at h with hhere
    rw [List.infix_cons_iff, not_or]
    exact ⟨hhere, ih (Option.map_eq_none_iff.mp h)⟩

/-- **The first place cuts the text**: the word stands there, and not in what comes before. -/
theorem exists_split_of_firstOccurrence {d text : List α} {k : ℕ} (hd : d ≠ [])
    (h : firstOccurrence d text = some k) :
    ∃ before after, text = before ++ d ++ after ∧ before.length = k ∧ ¬d <:+: before := by
  induction text generalizing k with
  | nil => exact absurd h (by simp [firstOccurrence, hd])
  | cons c cs ih =>
    rw [firstOccurrence] at h
    split_ifs at h with hhere
    · obtain ⟨after, hafter⟩ := hhere
      refine ⟨[], after, hafter.symm, Option.some_inj.mp h, ?_⟩
      rwa [List.infix_nil]
    · obtain ⟨j, hj, rfl⟩ := Option.map_eq_some_iff.mp h
      obtain ⟨before, after, rfl, rfl, hbefore⟩ := ih hj
      refine ⟨c :: before, after, rfl, rfl, ?_⟩
      rw [List.infix_cons_iff, not_or]
      refine ⟨fun hp => hhere (hp.trans ⟨d ++ after, ?_⟩), hbefore⟩
      rw [List.cons_append, List.append_assoc]

/-! ## The last place of a letter -/

/-- **The last place of a letter**: the greatest index at which the text has it. -/
def lastOccurrence (c : α) : List α → Option ℕ
  | [] => none
  | x :: xs => ((lastOccurrence c xs).map (· + 1)).or (if x = c then some 0 else none)

theorem lastOccurrence_eq_none_iff {c : α} {text : List α} :
    lastOccurrence c text = none ↔ c ∉ text := by
  induction text with
  | nil => exact iff_of_true rfl List.not_mem_nil
  | cons x xs ih =>
    rw [lastOccurrence, Option.or_eq_none_iff, Option.map_eq_none_iff, ih, List.mem_cons, not_or,
      and_comm]
    refine and_congr_left fun _ => ?_
    split_ifs with hx
    · exact iff_of_false not_false fun h => h hx.symm
    · exact iff_of_true rfl (Ne.symm hx)

/-- A letter that the rest does not have is at its last place. -/
theorem lastOccurrence_append {c : α} {rest : List α} (h : c ∉ rest) (before : List α) :
    lastOccurrence c (before ++ c :: rest) = some before.length := by
  induction before with
  | nil =>
    rw [List.nil_append, lastOccurrence, lastOccurrence_eq_none_iff.mpr h, if_pos rfl]
    rfl
  | cons x before ih =>
    rw [List.cons_append, lastOccurrence, ih]
    rfl

omit [DecidableEq α] in
/-- **The last place cuts the text**: the letter stands there, and not in what follows. -/
theorem exists_split_of_mem {c : α} {text : List α} (h : c ∈ text) :
    ∃ before rest, text = before ++ c :: rest ∧ c ∉ rest := by
  obtain ⟨after, before, hsplit, hafter⟩ :=
    List.eq_append_cons_of_mem (List.mem_reverse.mpr h)
  refine ⟨before.reverse, after.reverse, ?_, fun hc => hafter (List.mem_reverse.mp hc)⟩
  rw [← List.reverse_reverse text, hsplit, List.reverse_append, List.reverse_cons,
    List.append_assoc, List.singleton_append]

/-- … and is where it was found. -/
theorem exists_split_of_lastOccurrence {c : α} {text : List α} {k : ℕ}
    (h : lastOccurrence c text = some k) :
    ∃ before rest, text = before ++ c :: rest ∧ before.length = k ∧ c ∉ rest := by
  have hmem : c ∈ text := by
    by_contra hnot
    exact absurd (h.symm.trans (lastOccurrence_eq_none_iff.mpr hnot)) (Option.some_ne_none k)
  obtain ⟨before, rest, rfl, hrest⟩ := exists_split_of_mem hmem
  rw [lastOccurrence_append hrest, Option.some_inj] at h
  exact ⟨before, rest, rfl, h, hrest⟩

theorem getElem?_of_lastOccurrence {c : α} {text : List α} {k : ℕ}
    (h : lastOccurrence c text = some k) : text[k]? = some c := by
  obtain ⟨before, rest, rfl, rfl, -⟩ := exists_split_of_lastOccurrence h
  rw [List.getElem?_append_right le_rfl, Nat.sub_self, List.getElem?_cons_zero]

/-! ## Cutting at a word -/

variable {d text : List α} {tokens : List (List α)} {closed : Bool}

omit [DecidableEq α] in
/-- **A text cut at a word**: each token is free of the word and followed by it, but for a last one
that the end of the text closes. -/
inductive Cut (d : List α) : List α → List (List α) → Bool → Prop
  | rest {t : List α} : ¬d <:+: t → Cut d t [t] false
  | closing {t : List α} : ¬d <:+: t → Cut d (t ++ d) [t] true
  | more {t text : List α} {tokens : List (List α)} {closed : Bool} :
    ¬d <:+: t → Cut d text tokens closed → Cut d (t ++ d ++ text) (t :: tokens) closed

namespace Cut

omit [DecidableEq α]

theorem ne_nil (h : Cut d text tokens closed) : tokens ≠ [] := by
  cases h <;> exact List.cons_ne_nil _ _

/-- No token holds the word. -/
theorem not_infix (h : Cut d text tokens closed) : ∀ t ∈ tokens, ¬d <:+: t := by
  induction h with
  | rest ht => exact List.forall_mem_singleton.mpr ht
  | closing ht => exact List.forall_mem_singleton.mpr ht
  | more ht _ ih => exact List.forall_mem_cons.mpr ⟨ht, ih⟩

/-- **The tokens joined by the word are the text**, up to the word it ends in. -/
theorem intercalate_append (h : Cut d text tokens closed) :
    d.intercalate tokens ++ (if closed then d else []) = text := by
  induction h with
  | rest _ => exact (List.append_nil _).trans List.intercalate_singleton
  | closing _ => exact congrArg (· ++ d) List.intercalate_singleton
  | more _ hcut ih =>
    rw [List.intercalate_cons_of_ne_nil hcut.ne_nil, List.append_assoc, ih]

end Cut

end Femtolog
