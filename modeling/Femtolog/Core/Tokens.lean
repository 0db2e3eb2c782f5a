import Femtolog.Queue.Basic
import Femtolog.Foundations.Encoding
import Femtolog.Foundations.Search

/-!
# Core/Tokens — splitting a text

`split_string` looks for the delimiter from where it has found the last one, and pushes what lies
between.  An empty delimiter makes a token of every character.  No token holds the delimiter, and
the tokens joined by it are the text, up to a delimiter the text ends in, behind which no empty
token is pushed (`split_string_spec`).
-/

namespace Femtolog

/-! ## The functions -/

/-- `std::string::find`: the first place of `delimiter` at `pos` or behind, `none` for `npos`. -/
def find (input delimiter : List Byte) (pos : ℕ) : Option ℕ :=
  (firstOccurrence delimiter (input.drop pos)).map (pos + ·)

theorem le_of_find {input delimiter : List Byte} {pos next : ℕ}
    (h : find input delimiter pos = some next) : pos ≤ next := by
  obtain ⟨k, -, rfl⟩ := Option.map_eq_some_iff.mp h
  exact Nat.le_add_right pos k

/-- The loop of `split_string`: the tokens it has pushed, and the position it ends at. -/
def splitLoop (input delimiter : List Byte) (hd : 0 < delimiter.length)
    (result : List (List Byte)) (pos : ℕ) : List (List Byte) × ℕ :=
  if pos < input.length then
    match h : find input delimiter pos with
    | none => (result ++ [input.drop pos], pos)
    | some next =>
      have := le_of_find h
      splitLoop input delimiter hd (result ++ [(input.drop pos).take (next - pos)])
        (next + delimiter.length)
  else (result, pos)
termination_by input.length - pos

/-- `split_string`. -/
def splitString (input delimiter : List Byte) : List (List Byte) :=
  if h : delimiter.length = 0 then input.map fun c => [c]
  else (splitLoop input delimiter (Nat.pos_of_ne_zero h) [] 0).1

/-- The scan has consumed a delimiter that ends where the input does. -/
def EndsInDelimiter (input delimiter : List Byte) (hd : 0 < delimiter.length) : Prop :=
  0 < input.length ∧ (splitLoop input delimiter hd [] 0).2 = input.length

instance (input delimiter : List Byte) (hd : 0 < delimiter.length) :
    Decidable (EndsInDelimiter input delimiter hd) := inferInstanceAs (Decidable (_ ∧ _))

/-! ## The loop -/

variable {input delimiter : List Byte} {pos next : ℕ}

/-- Where the delimiter is not found, the rest of the input is free of it. -/
theorem not_infix_of_find (h : find input delimiter pos = none) :
    ¬delimiter <:+: input.drop pos :=
  not_infix_of_firstOccurrence (Option.map_eq_none_iff.mp h)

/-- **A delimiter that is found** lies in the input, and ends a token free of it. -/
theorem drop_of_find (hd : 0 < delimiter.length) (h : find input delimiter pos = some next) :
    next + delimiter.length ≤ input.length
    ∧ ∃ token, (input.drop pos).take (next - pos) = token ∧ ¬delimiter <:+: token
      ∧ input.drop pos = token ++ delimiter ++ input.drop (next + delimiter.length) := by
  obtain ⟨k, hk, rfl⟩ := Option.map_eq_some_iff.mp h
  obtain ⟨token, after, hdrop, rfl, hfree⟩ :=
    exists_split_of_firstOccurrence (List.length_pos_iff.mp hd) hk
  have htoken : (input.drop pos).take (pos + token.length - pos) = token := by
    rw [Nat.add_sub_cancel_left, hdrop, List.append_assoc, List.take_left]
  have hafter : input.drop (pos + token.length + delimiter.length) = after := by
    rw [Nat.add_assoc, ← List.drop_drop, hdrop, ← List.length_append, List.drop_left]
  have hlen := congrArg List.length hdrop
  rw [List.length_drop, List.length_append, List.length_append] at hlen
  exact ⟨by omega, token, htoken, hfree, hafter.symm ▸ hdrop⟩

/-- A turn that finds the delimiter pushes a token and goes on behind it. -/
theorem splitLoop_found (hd : 0 < delimiter.length) (result : List (List Byte))
    (hpos : pos < input.length) (h : find input delimiter pos = some next) :
    splitLoop input delimiter hd result pos
      = splitLoop input delimiter hd (result ++ [(input.drop pos).take (next - pos)])
        (next + delimiter.length) := by
  rw [splitLoop, if_pos hpos]
  split
  · rename_i hnone
    exact absurd (hnone.symm.trans h) (by simp)
  · rename_i other hother
    obtain rfl := Option.some_inj.mp (h.symm.trans hother)
    rfl

/-- **The loop cuts the rest of the input** at the delimiter, and ends where the input does exactly
if a delimiter closes it. -/
theorem splitLoop_cut (hd : 0 < delimiter.length) (result : List (List Byte))
    (hpos : pos < input.length) : ∃ tokens closed, Cut delimiter (input.drop pos) tokens closed
      ∧ (splitLoop input delimiter hd result pos).1 = result ++ tokens
      ∧ ((splitLoop input delimiter hd result pos).2 = input.length ↔ closed = true) := by
  fun_induction splitLoop input delimiter hd result pos with
  | case1 result pos _ hnone =>
    refine ⟨_, _, .rest (not_infix_of_find hnone), rfl, iff_of_false (Nat.ne_of_lt hpos) ?_⟩
    exact Bool.false_ne_true
  | case2 result pos _ next hsome _ ih =>
    obtain ⟨hin, token, htoken, hfree, hdrop⟩ := drop_of_find hd hsome
    rw [htoken] at ih ⊢
    rw [hdrop]
    rcases hin.lt_or_eq with hlt | hend
    · obtain ⟨tokens, closed, hcut, htokens, hclosed⟩ := ih hlt
      refine ⟨_, closed, .more hfree hcut, ?_, hclosed⟩
      rw [htokens, List.append_assoc, List.singleton_append]
    · rw [hend, List.drop_length, List.append_nil, splitLoop, if_neg (Nat.lt_irrefl _)]
      exact ⟨_, _, .closing hfree, rfl, iff_of_true rfl rfl⟩
  | case3 => contradiction

/-! ## Splitting -/

/-- **Splitting a text.**  With an empty delimiter the tokens are the characters.  With any other,
no token holds it, and the tokens joined by it are the input, followed by one more delimiter where
the scan has consumed one at the end of the input. -/
theorem split_string_spec (input : List Byte) :
    splitString input [] = input.map (fun c => [c])
    ∧ ∀ (delimiter : List Byte) (hd : 0 < delimiter.length),
      (∀ token ∈ splitString input delimiter, ¬delimiter <:+: token)
      ∧ delimiter.intercalate (splitString input delimiter)
        ++ (if EndsInDelimiter input delimiter hd then delimiter else []) = input := by
  refine ⟨dif_pos rfl, fun delimiter hd => ?_⟩
  have hsplit : splitString input delimiter = (splitLoop input delimiter hd [] 0).1 :=
    dif_neg hd.ne'
  rcases input.length.eq_zero_or_pos with hempty | hpos
  · obtain rfl := List.length_eq_zero_iff.mp hempty
    have hopen : ¬EndsInDelimiter [] delimiter hd := fun h => Nat.lt_irrefl 0 h.1
    rw [hsplit, splitLoop, if_neg hempty.not_gt, if_neg hopen]
    exact ⟨fun _ h => absurd h List.not_mem_nil, rfl⟩
  · obtain ⟨tokens, closed, hcut, htokens, hclosed⟩ := splitLoop_cut hd [] hpos
    have hend : EndsInDelimiter input delimiter hd ↔ closed = true :=
      (and_iff_right hpos).trans hclosed
    rw [hsplit, htokens, List.nil_append]
    refine ⟨hcut.not_infix, ?_⟩
    simpa only [hend, List.drop_zero] using hcut.intercalate_append

/-- A delimiter that overlaps itself, and ends the input. -/
theorem split_string_spec_overlap :
    (∀ token ∈ splitString (ascii "baaaa") (ascii "aa"), ¬ascii "aa" <:+: token)
    ∧ (ascii "aa").intercalate (splitString (ascii "baaaa") (ascii "aa")) ++ ascii "aa"
      = ascii "baaaa" := by
  have hd : 0 < (ascii "aa").length := by decide
  have hfirst : find (ascii "baaaa") (ascii "aa") 0 = some 1 := by decide
  have hsecond : find (ascii "baaaa") (ascii "aa") (1 + (ascii "aa").length) = some 3 := by decide
  have hends : EndsInDelimiter (ascii "baaaa") (ascii "aa") hd := by
    refine ⟨by decide, ?_⟩
    rw [splitLoop_found hd _ (by decide) hfirst, splitLoop_found hd _ (by decide) hsecond,
      splitLoop]
    rfl
  have hspec := (split_string_spec (ascii "baaaa")).2 (ascii "aa") hd
  rwa [if_pos hends] at hspec

end Femtolog
