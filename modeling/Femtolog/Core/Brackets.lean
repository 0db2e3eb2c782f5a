import Femtolog.Core.StringUtil
import Femtolog.Foundations.Stack

/-!
# Core/Brackets — taking out what stands in brackets

`remove_bracket` keeps the kinds of the brackets it is inside of in a vector, and writes the
characters that stand in none.  The vector has a cell for half the characters of the input, up to
`max_nest_size`, while a push asks for `max_nest_size` alone: it leaves the vector as soon as more
than half the characters are brackets not closed (`removeBracket_isSome_iff`).  The write pointer
stays in its buffer.

Below `max_nest_size` a bracket is matched by its kind, beyond it only counted.  On a well-bracketed
text that makes no difference: what is left is what stands in no brackets
(`removeBracket_of_wellBracketed`).
-/

namespace Femtolog

/-! ## The function -/

/-- `bracket_map`: the kind of an opening bracket, its negative for the closing one, `0` for any
other character. -/
def bracketMap (c : Byte) : ℤ :=
  if c = 0x28 then 1
  else if c = 0x29 then -1
  else if c = 0x7B then 2
  else if c = 0x7D then -2
  else if c = 0x5B then 3
  else if c = 0x5D then -3
  else if c = 0x3C then 4
  else if c = 0x3E then -4
  else 0

/-- The variables of the loop of `remove_bracket`. -/
structure BracketState (n : ℕ) where
  stack : List ℤ
  depth : ℕ
  out : Cursor Byte n

variable {n : ℕ}

namespace BracketState

/-- `stack[depth++] = bracket_type`, undefined where the vector has no such cell. -/
def push (s : BracketState n) (bracketType : ℤ) : Option (BracketState n) :=
  if s.depth < s.stack.length then
    some { s with stack := s.stack.set s.depth bracketType, depth := s.depth + 1 }
  else none

/-- One turn of the loop of `remove_bracket`. -/
def turn (maxNestSize : ℕ) (s : BracketState n) (c : Byte) : Option (BracketState n) :=
  let bracketType := bracketMap c
  if 0 < bracketType then
    if s.depth < maxNestSize then s.push bracketType
    else some { s with depth := s.depth + 1 }
  else if bracketType < 0 then
    if 0 < s.depth then
      if s.depth ≤ maxNestSize then
        (s.stack[s.depth - 1]?).map fun top =>
          if top = -bracketType then { s with depth := s.depth - 1 } else s
      else some { s with depth := s.depth - 1 }
    else some s
  else if s.depth = 0 then (s.out.put [c]).map fun out => { s with out := out }
  else some s

end BracketState

/-- The variables in front of the loop. -/
def bracketStart (input : List Byte) (maxNestSize : ℕ) : BracketState input.length where
  stack := List.replicate (min (input.length / 2) maxNestSize) 0
  depth := 0
  out := outBuffer input.length

/-- `remove_bracket`, undefined where it leaves its vector or its buffer. -/
def removeBracket (input : List Byte) (maxNestSize : ℕ) : Option (List Byte) :=
  if input = [] then some []
  else (input.foldlM (BracketState.turn maxNestSize) (bracketStart input maxNestSize)).map fun s =>
    s.out.cells.take s.out.pos

/-! ## Unclosed brackets -/

/-- What one more character makes of the unclosed brackets: an opening one comes on top, a closing
one takes the top off if it is of its kind. -/
def nextUnclosed (unclosed : List ℤ) (c : Byte) : List ℤ :=
  if 0 < bracketMap c then bracketMap c :: unclosed
  else if bracketMap c < 0 ∧ unclosed.head? = some (-bracketMap c) then unclosed.tail
  else unclosed

/-- **The brackets a text leaves unclosed**, the last one first. -/
def unclosed (text : List Byte) : List ℤ := text.foldl nextUnclosed []

theorem unclosed_concat (text : List Byte) (c : Byte) :
    unclosed (text ++ [c]) = nextUnclosed (unclosed text) c := List.foldl_concat ..

theorem nextUnclosed_opening {c : Byte} (hc : 0 < bracketMap c) (kinds : List ℤ) :
    nextUnclosed kinds c = bracketMap c :: kinds := if_pos hc

theorem nextUnclosed_closing {c : Byte} (hc : bracketMap c < 0) (kinds : List ℤ) :
    nextUnclosed kinds c
      = if kinds.head? = some (-bracketMap c) then kinds.tail else kinds := by
  simp only [nextUnclosed, if_neg hc.not_gt, hc, true_and]

theorem nextUnclosed_plain {c : Byte} (hc : bracketMap c = 0) (kinds : List ℤ) :
    nextUnclosed kinds c = kinds := by
  simp only [nextUnclosed, hc, lt_irrefl, false_and, if_false]

/-! ## One turn -/

namespace BracketState

variable {s s' : BracketState n} {maxNestSize : ℕ} {kinds : List ℤ} {c : Byte}

theorem turn_opening (hc : 0 < bracketMap c) : s.turn maxNestSize c
    = if s.depth < maxNestSize then s.push (bracketMap c)
      else some { s with depth := s.depth + 1 } := if_pos hc

theorem turn_closing (hc : bracketMap c < 0) : s.turn maxNestSize c
    = if 0 < s.depth then
        if s.depth ≤ maxNestSize then
          (s.stack[s.depth - 1]?).map fun top =>
            if top = -bracketMap c then { s with depth := s.depth - 1 } else s
        else some { s with depth := s.depth - 1 }
      else some s := by
  simp only [turn, if_neg hc.not_gt, if_pos hc]

theorem turn_plain (hc : bracketMap c = 0) : s.turn maxNestSize c
    = if s.depth = 0 then (s.out.put [c]).map fun out => { s with out := out } else some s := by
  simp only [turn, hc, lt_irrefl, if_false]

/-- **A turn is defined** where the vector has the cells it asks for, and writes one character at
most. -/
theorem turn_of_le (hopening : 0 < bracketMap c → s.depth < maxNestSize → s.depth < s.stack.length)
    (hclosing : s.depth ≤ maxNestSize → s.depth ≤ s.stack.length) (hroom : s.out.pos < n) :
    ∃ s', s.turn maxNestSize c = some s' ∧ s'.stack.length = s.stack.length
      ∧ s'.out.pos ≤ s.out.pos + 1 := by
  rcases lt_trichotomy (bracketMap c) 0 with hc | hc | hc
  · rw [turn_closing hc]
    split_ifs with hdepth hmax
    · have hcell : s.depth - 1 < s.stack.length :=
        (Nat.sub_lt hdepth Nat.one_pos).trans_le (hclosing hmax)
      rw [List.getElem?_eq_getElem hcell]
      refine ⟨_, rfl, ?_⟩
      dsimp only
      split_ifs
      · exact ⟨rfl, Nat.le_succ _⟩
      · exact ⟨rfl, Nat.le_succ _⟩
    · exact ⟨_, rfl, rfl, Nat.le_succ _⟩
    · exact ⟨s, rfl, rfl, Nat.le_succ _⟩
  · rw [turn_plain hc]
    split_ifs with hdepth
    · have hput : s.out.pos + [c].length ≤ n := hroom
      rw [Cursor.put, dif_pos hput]
      exact ⟨_, rfl, rfl, le_rfl⟩
    · exact ⟨s, rfl, rfl, Nat.le_succ _⟩
  · rw [turn_opening hc, push]
    split_ifs with hmax hcell
    · exact ⟨_, rfl, List.length_set, Nat.le_succ _⟩
    · exact absurd (hopening hc hmax) hcell
    · exact ⟨_, rfl, rfl, Nat.le_succ _⟩

/-- **The vector holds the unclosed brackets**, as long as it is not left. -/
theorem turn_isStack (hs : IsStack s.stack s.depth kinds) (hmax : s.stack.length < maxNestSize)
    (h : s.turn maxNestSize c = some s') : IsStack s'.stack s'.depth (nextUnclosed kinds c) := by
  have hdepth : s.depth < maxNestSize := (hs.depth_eq.trans_le hs.length_le).trans_lt hmax
  rcases lt_trichotomy (bracketMap c) 0 with hc | hc | hc
  · rw [nextUnclosed_closing hc]
    rw [turn_closing hc, if_pos hdepth.le] at h
    split_ifs at h with hpos
    · rw [hs.top hpos] at h
      obtain ⟨top, htop, rfl⟩ := Option.map_eq_some_iff.mp h
      by_cases hkind : top = -bracketMap c
      · rw [if_pos hkind, if_pos (hkind ▸ htop)]
        exact hs.pop
      · rw [if_neg hkind, if_neg fun h => hkind (Option.some_inj.mp (htop.symm.trans h))]
        exact hs
    · obtain rfl := Option.some_inj.mp h
      have hnil : kinds = [] := List.length_eq_zero_iff.mp (by have := hs.depth_eq; omega)
      rw [hnil] at hs ⊢
      exact hs
  · rw [nextUnclosed_plain hc]
    rw [turn_plain hc] at h
    split_ifs at h
    · obtain ⟨out, -, rfl⟩ := Option.map_eq_some_iff.mp h
      exact hs
    · exact Option.some_inj.mp h ▸ hs
  · rw [nextUnclosed_opening hc]
    rw [turn_opening hc, if_pos hdepth, push] at h
    split_ifs at h with hcell
    exact Option.some_inj.mp h ▸ hs.push hcell _

/-- A bracket for which the vector has no cell is stored past its end. -/
theorem turn_eq_none (hs : IsStack s.stack s.depth kinds) (hmax : s.stack.length < maxNestSize)
    (hover : s.stack.length < (nextUnclosed kinds c).length) : s.turn maxNestSize c = none := by
  have hle : kinds.length ≤ s.stack.length := hs.length_le
  have hdepth := hs.depth_eq
  rcases lt_trichotomy (bracketMap c) 0 with hc | hc | hc
  · rw [nextUnclosed_closing hc] at hover
    split_ifs at hover
    · rw [List.length_tail] at hover
      omega
    · omega
  · rw [nextUnclosed_plain hc] at hover
    omega
  · rw [nextUnclosed_opening hc, List.length_cons] at hover
    rw [turn_opening hc, if_pos (by omega), push, if_neg (by omega)]

end BracketState

/-! ## The loop -/

namespace BracketState

variable {input read : List Byte} {s : BracketState input.length} {maxNestSize : ℕ} {c : Byte}

/-- **The loop behind what it has read**: its vector has the size it started with, and it has
written one character for each at most. -/
structure After (maxNestSize : ℕ) (s : BracketState input.length) (read : List Byte) : Prop where
  length_stack : s.stack.length = min (input.length / 2) maxNestSize
  pos_le : s.out.pos ≤ read.length

/-- … and as long as it is not left, its vector holds the brackets left unclosed. -/
structure Holds (maxNestSize : ℕ) (s : BracketState input.length) (read : List Byte) : Prop
    extends After maxNestSize s read where
  isStack : IsStack s.stack s.depth (unclosed read)

theorem after_start (input : List Byte) (maxNestSize : ℕ) :
    (bracketStart input maxNestSize).After maxNestSize [] :=
  ⟨List.length_replicate, le_rfl⟩

/-- The write pointer stays in its buffer, which has a character for each of the input. -/
theorem After.turn (h : s.After maxNestSize read) (hread : read ++ [c] <+: input)
    (hopening : 0 < bracketMap c → s.depth < maxNestSize → s.depth < s.stack.length)
    (hclosing : s.depth ≤ maxNestSize → s.depth ≤ s.stack.length) :
    ∃ s', s.turn maxNestSize c = some s' ∧ s'.After maxNestSize (read ++ [c]) := by
  have hlen := hread.length_le
  rw [List.length_append] at hlen
  obtain ⟨s', hturn, hstack, hpos⟩ := turn_of_le hopening hclosing (h.pos_le.trans_lt hlen)
  refine ⟨s', hturn, hstack.trans h.length_stack, ?_⟩
  rw [List.length_append]
  exact hpos.trans (Nat.succ_le_succ h.pos_le)

end BracketState

open BracketState

variable {input : List Byte} {maxNestSize : ℕ}

/-- A vector with a cell for every depth up to `max_nest_size` is never left. -/
theorem foldlM_turn_of_le (hmax : maxNestSize ≤ input.length / 2) :
    (input.foldlM (turn maxNestSize) (bracketStart input maxNestSize)).isSome := by
  refine (foldlM_isSome_iff (After maxNestSize) (fun _ => True) ?_ ?_
    (after_start input maxNestSize) trivial).mpr fun _ _ => trivial
  · intro s read c hs hread _
    have hcells : s.stack.length = maxNestSize := hs.length_stack.trans (Nat.min_eq_right hmax)
    exact hs.turn hread (fun _ h => hcells.symm ▸ h) fun h => hcells.symm ▸ h
  · exact fun _ _ h => absurd trivial h

/-- **A smaller vector is left** with the first part of the input that leaves more brackets unclosed
than it has cells. -/
theorem foldlM_turn_of_lt (hmax : input.length / 2 < maxNestSize) :
    (input.foldlM (turn maxNestSize) (bracketStart input maxNestSize)).isSome
      ↔ ∀ text, text <+: input → (unclosed text).length ≤ input.length / 2 := by
  have hcells : ∀ {s : BracketState input.length} {read : List Byte}, s.After maxNestSize read →
      s.stack.length = input.length / 2 := fun h =>
    h.length_stack.trans (Nat.min_eq_left hmax.le)
  refine foldlM_isSome_iff (BracketState.Holds maxNestSize)
    (fun text => (unclosed text).length ≤ input.length / 2) ?_ ?_
    ⟨after_start input maxNestSize, .empty _⟩ (Nat.zero_le _)
  · rintro s read c ⟨hafter, hstack⟩ hread hfits
    rw [unclosed_concat] at hfits
    have hdepth := hstack.depth_eq.trans_le hstack.length_le
    have hopening : 0 < bracketMap c → s.depth < maxNestSize → s.depth < s.stack.length := by
      intro hc _
      rw [nextUnclosed_opening hc, List.length_cons, ← hcells hafter, ← hstack.depth_eq] at hfits
      exact hfits
    obtain ⟨s', hturn, hafter'⟩ := hafter.turn hread hopening fun _ => hdepth
    refine ⟨s', hturn, hafter', ?_⟩
    rw [unclosed_concat]
    exact turn_isStack hstack ((hcells hafter).trans_lt hmax) hturn
  · rintro s read c ⟨hafter, hstack⟩ - hover
    rw [unclosed_concat] at hover
    have hlt := Nat.lt_of_not_le hover
    exact turn_eq_none hstack ((hcells hafter).trans_lt hmax) (hcells hafter ▸ hlt)

/-- **Which inputs stay in bounds**: every access to the vector and every character written is
inside exactly if the vector has `max_nest_size` cells, or no part of the input leaves more brackets
unclosed than half the input has characters. -/
theorem removeBracket_isSome_iff (input : List Byte) (maxNestSize : ℕ) :
    (removeBracket input maxNestSize).isSome ↔ maxNestSize ≤ input.length / 2
      ∨ ∀ text, text <+: input → (unclosed text).length ≤ input.length / 2 := by
  rw [removeBracket]
  split_ifs with hempty
  · refine iff_of_true rfl (.inr fun text htext => ?_)
    rw [hempty] at htext
    rw [List.prefix_nil.mp htext]
    exact Nat.zero_le _
  · rw [Option.isSome_map]
    rcases le_or_gt maxNestSize (input.length / 2) with hmax | hmax
    · exact iff_of_true (foldlM_turn_of_le hmax) (.inl hmax)
    · rw [foldlM_turn_of_lt hmax, or_iff_right (Nat.not_le.mpr hmax)]

/-! ## Well-bracketed texts -/

/-- **A well-bracketed text**, with the characters of it that stand in no brackets. -/
inductive WellBracketed : List Byte → List Byte → Prop
  | nil : WellBracketed [] []
  | plain {c : Byte} {text outside : List Byte} (hc : bracketMap c = 0)
      (htext : WellBracketed text outside) : WellBracketed (c :: text) (c :: outside)
  | nest {opening closing : Byte} {inner inside rest outside : List Byte}
      (hopening : 0 < bracketMap opening) (hclosing : bracketMap closing = -bracketMap opening)
      (hinner : WellBracketed inner inside) (hrest : WellBracketed rest outside) :
      WellBracketed (opening :: (inner ++ closing :: rest)) outside

theorem WellBracketed.length_le {text outside : List Byte} (h : WellBracketed text outside) :
    outside.length ≤ text.length := by
  induction h with
  | nil => exact le_rfl
  | plain _ _ ih => exact Nat.succ_le_succ ih
  | nest _ _ _ _ _ ih =>
    simp only [List.length_cons, List.length_append]
    omega

namespace BracketState

variable {s s' : BracketState n} {maxNestSize : ℕ} {c : Byte}

/-- What a well-bracketed text leaves: depth and the cells below it as they were, and behind the
output what stands in no brackets, if there are none around the text. -/
structure Leaves (s s' : BracketState n) (outside : List Byte) : Prop where
  depth_eq : s'.depth = s.depth
  length_eq : s'.stack.length = s.stack.length
  below : ∀ i < s.depth, s'.stack[i]? = s.stack[i]?
  put_eq : s.out.put (if s.depth = 0 then outside else []) = some s'.out

/-- A plain character is written if it stands in no brackets. -/
theorem exists_turn_plain (hc : bracketMap c = 0) (hroom : s.out.pos < n) :
    ∃ out, s.turn maxNestSize c = some { s with out := out }
      ∧ s.out.put (if s.depth = 0 then [c] else []) = some out ∧ out.pos ≤ s.out.pos + 1 := by
  rw [turn_plain hc]
  split_ifs with hdepth
  · obtain ⟨out, hout⟩ := Cursor.exists_put s.out [c] hroom
    exact ⟨out, by rw [hout, Option.map_some], hout, (Cursor.pos_of_put hout).le⟩
  · exact ⟨s.out, rfl, Cursor.put_nil _, Nat.le_succ _⟩

/-- An opening bracket goes one deeper, and stores its kind up to the limit. -/
theorem exists_turn_opening (hc : 0 < bracketMap c)
    (hroom : s.depth < maxNestSize → s.depth < s.stack.length) :
    ∃ stack, s.turn maxNestSize c = some ⟨stack, s.depth + 1, s.out⟩
      ∧ stack.length = s.stack.length ∧ (∀ i < s.depth, stack[i]? = s.stack[i]?)
      ∧ (s.depth < maxNestSize → stack[s.depth]? = some (bracketMap c)) := by
  rw [turn_opening hc]
  split_ifs with hmax
  · have hcell := hroom hmax
    refine ⟨s.stack.set s.depth (bracketMap c), ?_, List.length_set, fun i hi => ?_, fun _ => ?_⟩
    · rw [push, if_pos hcell]
    · exact List.getElem?_set_ne hi.ne'
    · exact List.getElem?_set_self hcell
  · exact ⟨s.stack, rfl, rfl, fun _ _ => rfl, fun h => absurd h hmax⟩

/-- A closing bracket of the kind on top goes one up; beyond the limit any kind does. -/
theorem turn_closing_of_top {kind : ℤ} {depth : ℕ} (hkind : 0 < kind)
    (hc : bracketMap c = -kind) (hdepth : s.depth = depth + 1)
    (htop : depth < maxNestSize → s.stack[depth]? = some kind) :
    s.turn maxNestSize c = some { s with depth := depth } := by
  have hneg : bracketMap c < 0 := by omega
  have hpred : s.depth - 1 = depth := by omega
  rw [turn_closing hneg, if_pos (by omega), hpred, hc, neg_neg]
  split_ifs with hmax
  · rw [htop (by omega), Option.map_some, if_pos rfl]
  · rfl

/-- In brackets nothing is written. -/
theorem Leaves.out_eq {outside : List Byte} (h : s.Leaves s' outside) (hdepth : s.depth ≠ 0) :
    s'.out = s.out := by
  have hput := h.put_eq
  rw [if_neg hdepth, Cursor.put_nil] at hput
  exact (Option.some_inj.mp hput).symm

/-- **What a pair of brackets leaves**, from what is left of the text in it and of the text behind
it. -/
theorem Leaves.nest {s₁ s₂ : BracketState n} {stack : List ℤ} {inside outside : List Byte}
    (hlen : stack.length = s.stack.length) (hbelow : ∀ i < s.depth, stack[i]? = s.stack[i]?)
    (hinside : Leaves ⟨stack, s.depth + 1, s.out⟩ s₁ inside)
    (hleaves : Leaves { s₁ with depth := s.depth } s₂ outside) : s.Leaves s₂ outside where
  depth_eq := hleaves.depth_eq
  length_eq := hleaves.length_eq.trans (hinside.length_eq.trans hlen)
  below i hi := (hleaves.below i hi).trans
    ((hinside.below i (Nat.lt_succ_of_lt hi)).trans (hbelow i hi))
  put_eq := hinside.out_eq (Nat.succ_ne_zero _) ▸ hleaves.put_eq

/-- **A well-bracketed text leaves the brackets around it as they are**, on either side of the limit
and across it, in a vector with a cell for each bracket it may open below the limit. -/
theorem exists_leaves {text outside : List Byte} (h : WellBracketed text outside)
    (s : BracketState n) (hcells : min maxNestSize (s.depth + text.length / 2) ≤ s.stack.length)
    (hroom : s.out.pos + text.length ≤ n) :
    ∃ s', text.foldlM (turn maxNestSize) s = some s' ∧ s.Leaves s' outside := by
  induction h generalizing s with
  | nil =>
    refine ⟨s, rfl, rfl, rfl, fun _ _ => rfl, ?_⟩
    rw [ite_self, Cursor.put_nil]
  | @plain c text outside hc _ ih =>
    rw [List.length_cons] at hcells hroom
    obtain ⟨out, hturn, hout, hpos⟩ := @exists_turn_plain n s maxNestSize c hc (by omega)
    obtain ⟨s', hs', hleaves⟩ := ih { s with out := out } (by dsimp only; omega)
      (by dsimp only; omega)
    refine ⟨s', ?_, hleaves.depth_eq, hleaves.length_eq, hleaves.below, ?_⟩
    · rw [List.foldlM_cons, hturn]
      exact hs'
    · have hput := hleaves.put_eq
      dsimp only at hput
      split_ifs at hput hout ⊢ with hdepth
      · rw [← List.singleton_append, ← Cursor.put_bind_put, hout]
        exact hput
      · rwa [Option.some_inj.mp (hout.symm.trans (Cursor.put_nil _))] at hput
  | @nest opening closing inner inside rest outside hopening hclosing hinner hrest ihinner ihrest =>
    simp only [List.length_cons, List.length_append] at hcells hroom
    obtain ⟨stack, hturn, hlen, hbelow, htop⟩ :=
      @exists_turn_opening n s maxNestSize opening hopening (by omega)
    obtain ⟨s₁, hs₁, hinside⟩ := ihinner ⟨stack, s.depth + 1, s.out⟩ (by dsimp only; omega)
      (by dsimp only; omega)
    have hout : s₁.out = s.out := hinside.out_eq (Nat.succ_ne_zero _)
    have hcells₁ : s₁.stack.length = stack.length := hinside.length_eq
    have hclose : s₁.turn maxNestSize closing = some { s₁ with depth := s.depth } :=
      turn_closing_of_top hopening hclosing hinside.depth_eq fun hmax =>
        (hinside.below _ (Nat.lt_succ_self _)).trans (htop hmax)
    obtain ⟨s₂, hs₂, hleaves⟩ := ihrest { s₁ with depth := s.depth } (by dsimp only; omega)
      (by dsimp only; rw [hout]; omega)
    refine ⟨s₂, ?_, .nest hlen hbelow hinside hleaves⟩
    rw [List.foldlM_cons, hturn]
    change (inner ++ closing :: rest).foldlM (turn maxNestSize) _ = _
    rw [List.foldlM_append, hs₁]
    change (closing :: rest).foldlM (turn maxNestSize) _ = _
    rw [List.foldlM_cons, hclose]
    exact hs₂

end BracketState

/-- **Of a well-bracketed text the characters outside all brackets are left**, however deep the
brackets are nested and whatever the limit. -/
theorem removeBracket_of_wellBracketed {input outside : List Byte}
    (h : WellBracketed input outside) (maxNestSize : ℕ) :
    removeBracket input maxNestSize = some outside := by
  rw [removeBracket]
  split_ifs with hempty
  · subst hempty
    obtain _ | _ := h
    rfl
  · have hcells : min maxNestSize ((bracketStart input maxNestSize).depth + input.length / 2)
        ≤ (bracketStart input maxNestSize).stack.length := by
      rw [(after_start input maxNestSize).length_stack, bracketStart, Nat.zero_add, min_comm]
    obtain ⟨s', hs', hleaves⟩ := exists_leaves h (bracketStart input maxNestSize) hcells
      (Nat.zero_add _).le
    have hput : (outBuffer input.length).put outside = some s'.out := hleaves.put_eq
    rw [hs', Option.map_some, ← put_outBuffer h.length_le]
    exact (congrArg (Option.map fun out => out.cells.take out.pos) hput).symm

/-- Two kinds of brackets, nested deeper than the limit. -/
theorem removeBracket_nested : removeBracket (ascii "a([b]c)d<e>") 1 = some (ascii "ad") := by
  have plain : ∀ c : Byte, bracketMap c = 0 → WellBracketed [c] [c] := fun _ hc => .plain hc .nil
  have hsquare : WellBracketed (0x5B :: (ascii "b" ++ 0x5D :: ascii "c")) (ascii "c") :=
    .nest (by decide) rfl (plain _ rfl) (plain _ rfl)
  have hangle : WellBracketed (0x3C :: (ascii "e" ++ 0x3E :: [])) [] :=
    .nest (by decide) rfl (plain _ rfl) .nil
  have hround : WellBracketed (0x28 :: (ascii "[b]c" ++ 0x29 :: ascii "d<e>")) (ascii "d") :=
    .nest (by decide) rfl hsquare (.plain rfl hangle)
  exact removeBracket_of_wellBracketed (.plain rfl hround) 1

example : removeBracket (ascii "for (example)") 32 = some (ascii "for ") := by decide

/-- A single opening bracket: the vector has no cell at all. -/
theorem removeBracket_past_end : ¬(removeBracket (ascii "(") 32).isSome := by decide

end Femtolog
