import Femtolog.Core.StringUtil

/-!
# Core/Utf8 — cutting a text behind a number of characters

`utf8_truncate` steps from lead byte to lead byte and stops in front of a character that the text
does not hold to its end.  It takes a byte that cannot lead a character for a character of its own,
so it works on any bytes, where it still gives a prefix and two cuts are the shorter of them; in
valid UTF-8 its characters are the code points (`utf8_truncate_spec`).
-/

namespace Femtolog

namespace Utf8

/-! ## The functions -/

/-- `utf8_char_length`. -/
def utf8CharLength (lead : Byte) : ℕ :=
  if lead < 0x80 then 1
  else if lead &&& 0xE0 = 0xC0 then 2
  else if lead &&& 0xF0 = 0xE0 then 3
  else if lead &&& 0xF8 = 0xF0 then 4
  else 1

/-- The loop of `utf8_truncate`: the byte index it ends at. -/
def truncateLoop (data : List Byte) (maxChars i chars : ℕ) : ℕ :=
  if h : i < data.length ∧ chars < maxChars then
    let len := utf8CharLength (data.get ⟨i, h.1⟩)
    if data.length < i + len then i else truncateLoop data maxChars (i + len) (chars + 1)
  else i
termination_by maxChars - chars

/-- `utf8_truncate`. -/
def utf8Truncate (input : List Byte) (maxChars : ℕ) : List Byte :=
  if maxChars = 0 then []
  else if input = [] then []
  else input.take (truncateLoop input maxChars 0 0)

/-! ## Characters -/

/-- **A character as the loop sees it**: a lead byte, and as many bytes as it tells. -/
def IsUnit (unit : List Byte) : Prop :=
  ∃ lead rest, unit = lead :: rest ∧ unit.length = utf8CharLength lead

/-- A text that ends within its first character. -/
def Incomplete (s : List Byte) : Prop :=
  ∃ lead rest, s = lead :: rest ∧ s.length < utf8CharLength lead

theorem utf8CharLength_pos (lead : Byte) : 0 < utf8CharLength lead := by
  rw [utf8CharLength]
  split_ifs <;> decide

/-- **What a text begins with**: nothing, a part of a character, or a character. -/
theorem unit_cases (s : List Byte) : s = [] ∨ Incomplete s ∨ ∃ unit rest, IsUnit unit
    ∧ s = unit ++ rest := by
  cases s with
  | nil => exact .inl rfl
  | cons lead more =>
    refine .inr ((Nat.lt_or_ge _ _).imp (fun hlt => ⟨lead, more, rfl, hlt⟩) fun hle => ?_)
    refine ⟨(lead :: more).take (utf8CharLength lead), (lead :: more).drop (utf8CharLength lead),
      ⟨lead, more.take (utf8CharLength lead - 1), ?_, ?_⟩, (List.take_append_drop ..).symm⟩
    · exact List.take_cons (utf8CharLength_pos lead)
    · rw [List.length_take, Nat.min_eq_left hle]

/-- The first `k` characters, up to one that is not complete. -/
def firstUnits : ℕ → List Byte → List Byte
  | 0, _ => []
  | _ + 1, [] => []
  | k + 1, lead :: rest =>
    let len := utf8CharLength lead
    if (lead :: rest).length < len then []
    else (lead :: rest).take len ++ firstUnits k ((lead :: rest).drop len)

variable {unit rest s : List Byte}

@[simp] theorem firstUnits_nil (k : ℕ) : firstUnits k [] = [] := by
  cases k <;> rfl

theorem firstUnits_incomplete (hs : Incomplete s) (k : ℕ) : firstUnits k s = [] := by
  obtain ⟨lead, rest, rfl, hlt⟩ := hs
  cases k with
  | zero => rfl
  | succ k => exact if_pos hlt

theorem firstUnits_unit (hunit : IsUnit unit) (k : ℕ) (rest : List Byte) :
    firstUnits (k + 1) (unit ++ rest) = unit ++ firstUnits k rest := by
  obtain ⟨lead, more, rfl, hlen⟩ := hunit
  have hcomplete : ¬(lead :: more ++ rest).length < utf8CharLength lead := by
    rw [← hlen, List.length_append]
    omega
  rw [List.cons_append, firstUnits]
  rw [List.cons_append] at hcomplete
  simp only [if_neg hcomplete]
  rw [← List.cons_append, ← hlen, List.take_left, List.drop_left]

/-- **The loop ends behind the first characters** of what was left. -/
theorem take_truncateLoop (data : List Byte) (maxChars i chars : ℕ) :
    data.take (truncateLoop data maxChars i chars)
      = data.take i ++ firstUnits (maxChars - chars) (data.drop i) := by
  induction hk : maxChars - chars generalizing i chars with
  | zero =>
    rw [truncateLoop, dif_neg (by omega), firstUnits, List.append_nil]
  | succ k ih =>
    rcases unit_cases (data.drop i) with hend | hpart | ⟨unit, rest, hunit, hrest⟩
    · have hlen := List.drop_eq_nil_iff.mp hend
      rw [truncateLoop, dif_neg (by omega), hend, firstUnits_nil, List.append_nil]
    · obtain ⟨lead, more, hdrop, hlt⟩ := id hpart
      obtain ⟨hlead, -, hlen⟩ := drop_eq_cons hdrop
      obtain ⟨hi, hget⟩ := List.getElem?_eq_some_iff.mp hlead
      have hshort : data.length < i + utf8CharLength lead := by
        rw [hdrop, List.length_cons] at hlt
        omega
      rw [truncateLoop, dif_pos ⟨hi, by omega⟩, firstUnits_incomplete hpart, List.append_nil]
      simp only [List.get_eq_getElem, hget, if_pos hshort]
    · obtain ⟨lead, more, hcons, hunitLen⟩ := id hunit
      have hdrop : data.drop i = lead :: (more ++ rest) := by rw [hrest, hcons, List.cons_append]
      obtain ⟨hlead, -, hlen⟩ := drop_eq_cons hdrop
      obtain ⟨hi, hget⟩ := List.getElem?_eq_some_iff.mp hlead
      have hcomplete : ¬data.length < i + utf8CharLength lead := by
        rw [← hunitLen, hcons, List.length_cons]
        rw [List.length_append] at hlen
        omega
      have htake : data.take (i + utf8CharLength lead) = data.take i ++ unit := by
        rw [List.take_add, hrest, ← hunitLen, List.take_left]
      have hnext : data.drop (i + utf8CharLength lead) = rest := by
        rw [← List.drop_drop, hrest, ← hunitLen, List.drop_left]
      rw [truncateLoop, dif_pos ⟨hi, by omega⟩]
      simp only [List.get_eq_getElem, hget, if_neg hcomplete]
      rw [ih _ _ (by omega), htake, hnext, hrest, firstUnits_unit hunit, List.append_assoc]

/-- **A cut text is its first characters.** -/
theorem utf8Truncate_eq (input : List Byte) (k : ℕ) :
    utf8Truncate input k = firstUnits k input := by
  rw [utf8Truncate]
  split_ifs with hk hempty
  · rw [hk, firstUnits]
  · rw [hempty, firstUnits_nil]
  · exact take_truncateLoop input k 0 0

/-! ## Cutting -/

/-- The first characters are a prefix. -/
theorem firstUnits_prefix (k : ℕ) (s : List Byte) : firstUnits k s <+: s := by
  induction k generalizing s with
  | zero => exact List.nil_prefix
  | succ k ih =>
    rcases unit_cases s with rfl | hpart | ⟨unit, rest, hunit, rfl⟩
    · exact List.prefix_rfl
    · rw [firstUnits_incomplete hpart]
      exact List.nil_prefix
    · rw [firstUnits_unit hunit]
      exact (List.prefix_append_right_inj unit).mpr (ih rest)

/-- **Two cuts are the shorter of them**: the first one keeps whole characters only. -/
theorem firstUnits_firstUnits (a b : ℕ) (s : List Byte) :
    firstUnits b (firstUnits a s) = firstUnits (min a b) s := by
  induction a generalizing b s with
  | zero => rw [firstUnits, firstUnits_nil, Nat.zero_min, firstUnits]
  | succ a ih =>
    cases b with
    | zero => rw [firstUnits, Nat.min_zero, firstUnits]
    | succ b =>
      rcases unit_cases s with rfl | hpart | ⟨unit, rest, hunit, rfl⟩
      · rw [firstUnits_nil, firstUnits_nil, firstUnits_nil]
      · rw [firstUnits_incomplete hpart, firstUnits_incomplete hpart, firstUnits_nil]
      · rw [Nat.succ_min_succ, firstUnits_unit hunit, firstUnits_unit hunit,
          firstUnits_unit hunit, ih]

/-! ## Code points -/

/-- **The encoding of a code point is a character** of the loop. -/
theorem isUnit_utf8EncodeChar (c : Char) : IsUnit (String.utf8EncodeChar c) := by
  have hone : ∀ n < 0x80, utf8CharLength (UInt8.ofNat n) = 1 := by decide
  have htwo : ∀ n < 0x20, utf8CharLength (UInt8.ofNat (n + 0xC0)) = 2 := by decide
  have hthree : ∀ n < 0x10, utf8CharLength (UInt8.ofNat (n + 0xE0)) = 3 := by decide
  have hfour : ∀ n < 0x08, utf8CharLength (UInt8.ofNat (n + 0xF0)) = 4 := by decide
  rw [String.utf8EncodeChar]
  split_ifs with h1 h2 h3
  · exact ⟨_, _, rfl, (hone _ (by omega)).symm⟩
  · exact ⟨_, _, rfl, (htwo _ (Nat.mod_lt _ (by decide))).symm⟩
  · exact ⟨_, _, rfl, (hthree _ (Nat.mod_lt _ (by decide))).symm⟩
  · exact ⟨_, _, rfl, (hfour _ (Nat.mod_lt _ (by decide))).symm⟩

/-- The first characters of valid UTF-8 are its first code points. -/
theorem firstUnits_encode (k : ℕ) (cs : List Char) :
    firstUnits k (cs.flatMap String.utf8EncodeChar)
      = (cs.take k).flatMap String.utf8EncodeChar := by
  induction cs generalizing k with
  | nil => rw [List.take_nil, List.flatMap_nil, firstUnits_nil]
  | cons c cs ih =>
    cases k with
    | zero => rfl
    | succ k =>
      rw [List.flatMap_cons, firstUnits_unit (isUnit_utf8EncodeChar c), ih, List.take_succ_cons,
        List.flatMap_cons]

/-- **Cutting a text**: a cut gives a prefix and two cuts are the shorter of them, whatever the
bytes; and a cut of valid UTF-8 is the encoding of its first code points. -/
theorem utf8_truncate_spec :
    (∀ (s : List Byte) (k : ℕ), utf8Truncate s k <+: s)
    ∧ (∀ (s : List Byte) (a b : ℕ), utf8Truncate (utf8Truncate s a) b = utf8Truncate s (min a b))
    ∧ ∀ (cs : List Char) (k : ℕ), utf8Truncate (cs.flatMap String.utf8EncodeChar) k
      = (cs.take (min k cs.length)).flatMap String.utf8EncodeChar := by
  simp only [utf8Truncate_eq]
  refine ⟨fun s k => firstUnits_prefix k s, fun s a b => firstUnits_firstUnits a b s, ?_⟩
  intro cs k
  rw [firstUnits_encode, List.take_eq_take_min]

end Utf8

end Femtolog
