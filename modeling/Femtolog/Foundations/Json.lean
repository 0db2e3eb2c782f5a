import Mathlib.Data.List.Forall2
import Mathlib.Data.Nat.Digits.Defs

/-!
# Foundations/Json — JSON texts and what they stand for

A reader for the JSON grammar: white space, the literal names, numbers, strings with their escapes,
arrays and objects.  A reader takes a value off the front of a text and returns the rest; `parse`
reads a whole text.

Strings are lists of code points; a `\u` escape stands for the unit it spells, so that a surrogate
pair stays two.  A number is a mantissa and a decimal exponent.  The members of an object keep their
order, and a name may come twice; `HasMember` says that a name comes once and with which value.

The lemmas read texts that are put together: a string is read up to its closing quote
(`stringBody_append`), a decimal number up to the first character that is no part of a number
(`number_decimal`), the members of an object one by one (`items_cons`, `items_last`).
-/

namespace Femtolog

/-- A JSON value. -/
inductive Json
  | null
  | bool (b : Bool)
  | number (mantissa exponent : ℤ)
  | string (s : List ℕ)
  | array (elements : List Json)
  | object (members : List (List ℕ × Json))

namespace Json

variable {α : Type*}

/-- A reader takes a value off the front of a text. -/
abbrev Reader (α : Type*) : Type _ := List Char → Option (α × List Char)

/-! ## White space and literal names -/

/-- `ws`. -/
def isWs (c : Char) : Bool := c = ' ' || c = '\t' || c = '\n' || c = '\r'

def skipWs (text : List Char) : List Char := text.dropWhile isWs

/-- The literal name `name`, which stands for `value`. -/
def literal (name : List Char) (value : α) : Reader α := fun text =>
  if name <+: text then some (value, text.drop name.length) else none

/-! ## Strings -/

/-- `HEXDIG`, in either case. -/
def hexDigit (c : Char) : Option ℕ :=
  if '0' ≤ c ∧ c ≤ '9' then some (c.toNat - '0'.toNat)
  else if 'a' ≤ c ∧ c ≤ 'f' then some (c.toNat - 'a'.toNat + 10)
  else if 'A' ≤ c ∧ c ≤ 'F' then some (c.toNat - 'A'.toNat + 10)
  else none

/-- The character that a backslash and `c` stand for. -/
def unescape (c : Char) : Option ℕ :=
  if c = '"' ∨ c = '\\' ∨ c = '/' then some c.toNat
  else if c = 'b' then some 0x08
  else if c = 'f' then some 0x0C
  else if c = 'n' then some 0x0A
  else if c = 'r' then some 0x0D
  else if c = 't' then some 0x09
  else none

/-- `4HEXDIG`. -/
def hex4 : Reader ℕ
  | h3 :: h2 :: h1 :: h0 :: rest => do
    let d3 ← hexDigit h3
    let d2 ← hexDigit h2
    let d1 ← hexDigit h1
    let d0 ← hexDigit h0
    some (d3 * 4096 + d2 * 256 + d1 * 16 + d0, rest)
  | _ => none

/-- `char`: a character that is no control, or an escape. -/
def char : Reader ℕ
  | [] => none
  | c :: rest =>
    if c = '\\' then
      match rest with
      | [] => none
      | e :: rest => if e = 'u' then hex4 rest else (unescape e).map fun u => (u, rest)
    else if c.toNat < 0x20 then none
    else some (c.toNat, rest)

/-- At most `n` characters, up to the closing quote. -/
def chars : ℕ → Reader (List ℕ)
  | 0, _ => none
  | n + 1, text =>
    match text with
    | [] => none
    | c :: rest =>
      if c = '"' then some ([], rest)
      else (char text).bind fun r => (chars n r.2).map fun s => (r.1 :: s.1, s.2)

/-- A string behind its opening quote. -/
def stringBody : Reader (List ℕ) := fun text => chars text.length text

/-! ## Numbers -/

/-- `1*DIGIT`. -/
def digits : Reader (List Char) := fun text =>
  let ds := text.takeWhile Char.isDigit
  if ds = [] then none else some (ds, text.dropWhile Char.isDigit)

/-- `[ frac ]`. -/
def fraction : Reader (List Char)
  | '.' :: rest => digits rest
  | rest => some ([], rest)

/-- `[ exp ]`. -/
def exponent : Reader ℤ
  | [] => some (0, [])
  | c :: rest =>
    if c = 'e' ∨ c = 'E' then
      match rest with
      | '-' :: rest => (digits rest).map fun r => (-(Nat.ofDigitChars 10 r.1 0 : ℤ), r.2)
      | '+' :: rest => (digits rest).map fun r => ((Nat.ofDigitChars 10 r.1 0 : ℤ), r.2)
      | rest => (digits rest).map fun r => ((Nat.ofDigitChars 10 r.1 0 : ℤ), r.2)
    else some (0, c :: rest)

/-- `int [ frac ] [ exp ]`: no leading zeros. -/
def unsigned (sign : ℤ) : Reader Json := fun text => do
  let (int, rest) ← digits text
  if int.head? = some '0' ∧ int.length ≠ 1 then none
  else do
    let (frac, rest) ← fraction rest
    let (exp, rest) ← exponent rest
    some (.number (sign * Nat.ofDigitChars 10 (int ++ frac) 0) (exp - frac.length), rest)

/-- `number`: an optional minus sign first. -/
def signed : Reader Json
  | '-' :: rest => unsigned (-1) rest
  | rest => unsigned 1 rest

/-! ## Arrays and objects -/

/-- Items separated by commas, up to a closing bracket. -/
def items (item : Reader α) (close : Char) : ℕ → Reader (List α)
  | 0, _ => none
  | n + 1, text => do
    let (x, rest) ← item text
    match skipWs rest with
    | [] => none
    | c :: rest =>
      if c = ',' then (items item close n rest).map fun r => (x :: r.1, r.2)
      else if c = close then some ([x], rest)
      else none

/-- No items, or `items`. -/
def bracketed (item : Reader α) (close : Char) (n : ℕ) : Reader (List α) := fun text =>
  match skipWs text with
  | [] => none
  | c :: rest => if c = close then some ([], rest) else items item close n text

/-- `member`: a name, a colon and a value. -/
def member (value : Reader Json) : Reader (List ℕ × Json) := fun text =>
  match skipWs text with
  | '"' :: rest => do
    let (name, rest) ← stringBody rest
    match skipWs rest with
    | ':' :: rest => (value rest).map fun r => ((name, r.1), r.2)
    | _ => none
  | _ => none

/-- `value`, with the white space before it; no deeper than `n`. -/
def value : ℕ → Reader Json
  | 0, _ => none
  | n + 1, text =>
    match skipWs text with
    | '"' :: rest => (stringBody rest).map fun r => (.string r.1, r.2)
    | '[' :: rest => (bracketed (value n) ']' n rest).map fun r => (.array r.1, r.2)
    | '{' :: rest => (bracketed (member (value n)) '}' n rest).map fun r => (.object r.1, r.2)
    | 'n' :: rest => literal ['u', 'l', 'l'] null rest
    | 't' :: rest => literal ['r', 'u', 'e'] (bool true) rest
    | 'f' :: rest => literal ['a', 'l', 's', 'e'] (bool false) rest
    | rest => signed rest

/-- **What a JSON text stands for.**  A text nests no deeper than it is long. -/
def parse (text : List Char) : Option Json := do
  let (v, rest) ← value (text.length + 1) text
  if skipWs rest = [] then some v else none

example : parse "\x7b\"a\": [1, -2.50e+1, true], \"b\": \"x\\n\\u0041\"\x7d".toList
    = some (.object [([97], .array [.number 1 0, .number (-250) (-1), .bool true]),
        ([98], .string [120, 10, 65])]) := rfl

/-- **The member of this name**: the name comes once, and stands for `v`. -/
def HasMember (members : List (List ℕ × Json)) (name : List ℕ) (v : Json) : Prop :=
  members.filter (fun m => m.1 = name) = [(name, v)]

/-- The first member of a name is the member of the name. -/
theorem HasMember.eq_of_first {before after : List (List ℕ × Json)} {name : List ℕ} {v w : Json}
    (h : HasMember (before ++ (name, w) :: after) name v) (hbefore : ∀ m ∈ before, m.1 ≠ name) :
    w = v := by
  have hskip : before.filter (fun m => m.1 = name) = [] :=
    List.filter_eq_nil_iff.mpr fun m hm => by simpa using hbefore m hm
  rw [HasMember, List.filter_append, hskip, List.nil_append, List.filter_cons_of_pos (by simp)] at h
  exact (Prod.mk.inj (List.cons.inj h).1).2

/-! ## Reading strings -/

/-- The text `t` spells the character `u` of a string. -/
structure Spells (t : List Char) (u : ℕ) : Prop where
  length_pos : 0 < t.length
  head : t.head? ≠ some '"'
  read : ∀ rest, char (t ++ rest) = some (u, rest)

/-- A character that is no control spells itself. -/
theorem spells_plain {c : Char} (hquote : c ≠ '"') (hslash : c ≠ '\\') (hcontrol : 0x20 ≤ c.toNat) :
    Spells [c] c.toNat := by
  refine ⟨Nat.one_pos, by simpa using hquote, fun rest => ?_⟩
  change (if c = '\\' then _ else if c.toNat < 0x20 then none else some (c.toNat, rest)) = _
  rw [if_neg hslash, if_neg (by omega)]

/-- A name of such characters spells itself. -/
theorem spells_name {name : List Char} (h : ∀ c ∈ name, c ≠ '"' ∧ c ≠ '\\' ∧ 0x20 ≤ c.toNat) :
    List.Forall₂ Spells (name.map fun c => [c]) (name.map Char.toNat) := by
  rw [List.forall₂_map_left_iff, List.forall₂_map_right_iff, List.forall₂_same]
  exact fun c hc => spells_plain (h c hc).1 (h c hc).2.1 (h c hc).2.2

/-- An escape spells what it stands for. -/
theorem spells_escape {c : Char} {u : ℕ} (hu : c ≠ 'u') (h : unescape c = some u) :
    Spells ['\\', c] u := by
  refine ⟨Nat.two_pos, fun h => absurd (Option.some.inj h) (by decide), fun rest => ?_⟩
  change (if c = 'u' then hex4 rest else (unescape c).map fun u => (u, rest)) = _
  rw [if_neg hu, h]
  rfl

variable {ts : List (List Char)} {us : List ℕ} {text rest : List Char}

theorem chars_cons (n : ℕ) (c : Char) (cs : List Char) :
    chars (n + 1) (c :: cs) = if c = '"' then some ([], cs)
      else (char (c :: cs)).bind fun r => (chars n r.2).map fun s => (r.1 :: s.1, s.2) := rfl

/-- Characters that are spelt out are read one after the other. -/
theorem chars_append (h : List.Forall₂ Spells ts us) (n : ℕ) :
    chars (us.length + n) (ts.flatten ++ rest)
      = (chars n rest).map fun r => (us ++ r.1, r.2) := by
  induction h with
  | nil => simp
  | @cons t u ts us htu _ ih =>
    obtain _ | ⟨c, cs⟩ := t
    · exact absurd htu.length_pos (Nat.lt_irrefl 0)
    · have hquote : c ≠ '"' := fun hc => htu.head (congrArg some hc)
      have hread := htu.read (ts.flatten ++ rest)
      have hfuel : (u :: us).length + n = us.length + n + 1 := by
        rw [List.length_cons]
        omega
      rw [hfuel, List.flatten_cons, List.append_assoc, List.cons_append, chars_cons, if_neg hquote,
        ← List.cons_append, hread, Option.bind_some, ih, Option.map_map]
      rfl

theorem length_le_of_spells (h : List.Forall₂ Spells ts us) : us.length ≤ ts.flatten.length := by
  induction h with
  | nil => exact Nat.le_refl _
  | cons htu _ ih =>
    rw [List.flatten_cons, List.length_append, List.length_cons]
    have := htu.length_pos
    omega

/-- **A string is read up to its closing quote.** -/
theorem stringBody_append (h : List.Forall₂ Spells ts us) (rest : List Char) :
    stringBody (ts.flatten ++ '"' :: rest) = some (us, rest) := by
  obtain ⟨n, hn⟩ : ∃ n, (ts.flatten ++ '"' :: rest).length = us.length + (n + 1) := by
    refine ⟨(ts.flatten ++ '"' :: rest).length - us.length - 1, ?_⟩
    have := length_le_of_spells h
    simp only [List.length_append, List.length_cons]
    omega
  rw [stringBody, hn, chars_append h]
  change some (us ++ [], rest) = _
  rw [List.append_nil]

/-- A name in quotes is read. -/
theorem stringBody_name {name : List Char} (h : ∀ c ∈ name, c ≠ '"' ∧ c ≠ '\\' ∧ 0x20 ≤ c.toNat)
    (rest : List Char) : stringBody (name ++ '"' :: rest) = some (name.map Char.toNat, rest) := by
  have hbody := stringBody_append (spells_name h) rest
  rwa [← List.flatMap_def, List.flatMap_singleton'] at hbody

/-- A control character ends no string. -/
theorem stringBody_control (h : List.Forall₂ Spells ts us) {c : Char} (hcontrol : c.toNat < 0x20)
    (rest : List Char) : stringBody (ts.flatten ++ c :: rest) = none := by
  obtain ⟨n, hn⟩ : ∃ n, (ts.flatten ++ c :: rest).length = us.length + (n + 1) := by
    refine ⟨(ts.flatten ++ c :: rest).length - us.length - 1, ?_⟩
    have := length_le_of_spells h
    simp only [List.length_append, List.length_cons]
    omega
  have hquote : c ≠ '"' := fun hc => absurd hcontrol (hc ▸ by decide)
  have hslash : c ≠ '\\' := fun hc => absurd hcontrol (hc ▸ by decide)
  have hnone : char (c :: rest) = none := by
    change (if c = '\\' then _ else if c.toNat < 0x20 then none else some (c.toNat, rest)) = _
    rw [if_neg hslash, if_pos hcontrol]
  rw [stringBody, hn, chars_append h, chars_cons, if_neg hquote, hnone]
  rfl

/-! ## Reading numbers -/

theorem head?_toDigits {n : ℕ} (hn : 0 < n) : (Nat.toDigits 10 n).head? ≠ some '0' := by
  induction n using Nat.strong_induction_on with
  | _ n ih =>
    rw [Nat.toDigits_eq_if (by decide)]
    split_ifs with hlt
    · have htable : ∀ d < 10, 0 < d → [Nat.digitChar d].head? ≠ some '0' := by decide
      exact htable n hlt hn
    · have hdiv : 0 < n / 10 := Nat.div_pos (by omega) (by decide)
      rw [List.head?_append_of_ne_nil _ Nat.toDigits_ne_nil]
      exact ih _ (by omega) hdiv

/-- **A decimal number is read up to the first character that is no part of a number.** -/
theorem signed_decimal (n : ℕ) {c : Char} (hdigit : c.isDigit = false) (hdot : c ≠ '.')
    (he : c ≠ 'e' ∧ c ≠ 'E') (rest : List Char) :
    signed (Nat.toDigits 10 n ++ c :: rest) = some (.number n 0, c :: rest) := by
  have hall : ∀ d ∈ Nat.toDigits 10 n, d.isDigit = true := fun d hd =>
    Nat.isDigit_of_mem_toDigits (by decide) (by decide) hd
  have htake : (Nat.toDigits 10 n ++ c :: rest).takeWhile Char.isDigit = Nat.toDigits 10 n := by
    rw [List.takeWhile_append_of_pos hall, List.takeWhile_cons_of_neg (by simp [hdigit]),
      List.append_nil]
  have hdrop : (Nat.toDigits 10 n ++ c :: rest).dropWhile Char.isDigit = c :: rest := by
    rw [List.dropWhile_append_of_pos hall, List.dropWhile_cons_of_neg (by simp [hdigit])]
  have hdigits : digits (Nat.toDigits 10 n ++ c :: rest)
      = some (Nat.toDigits 10 n, c :: rest) := by
    rw [digits, htake, hdrop, if_neg Nat.toDigits_ne_nil]
  have hzeros : ¬((Nat.toDigits 10 n).head? = some '0' ∧ (Nat.toDigits 10 n).length ≠ 1) := by
    rintro ⟨hhead, hlength⟩
    rcases Nat.eq_zero_or_pos n with rfl | hpos
    · exact hlength (by decide)
    · exact head?_toDigits hpos hhead
  have hfraction : fraction (c :: rest) = some ([], c :: rest) := by
    rw [fraction.eq_def]
    split
    · next heq => exact absurd (List.cons.inj heq).1 hdot
    · rfl
  have hexponent : exponent (c :: rest) = some (0, c :: rest) := by
    change (if c = 'e' ∨ c = 'E' then _ else some (0, c :: rest)) = _
    rw [if_neg (not_or.mpr he)]
  have hunsigned : unsigned 1 (Nat.toDigits 10 n ++ c :: rest) = some (.number n 0, c :: rest) := by
    rw [unsigned, hdigits]
    simp only [Option.bind_eq_bind, Option.bind_some, if_neg hzeros, hfraction, hexponent,
      List.append_nil, Nat.ofDigitChars_ten_toDigits, one_mul, List.length_nil, Nat.cast_zero,
      sub_zero]
  obtain ⟨d, ds, hds⟩ := List.exists_cons_of_ne_nil (Nat.toDigits_ne_nil (n := n) (b := 10))
  have hd : d.isDigit = true := hall d (hds ▸ List.mem_cons_self)
  rw [hds] at hunsigned ⊢
  rw [signed.eq_def]
  split
  · next heq =>
    rw [(List.cons.inj heq).1] at hd
    exact absurd hd (by decide)
  · exact hunsigned

/-! ## Reading values -/

theorem skipWs_cons {c : Char} (h : isWs c = false) (rest : List Char) :
    skipWs (c :: rest) = c :: rest :=
  List.dropWhile_cons_of_neg (by simp [h])

/-- A decimal number is read as a value. -/
theorem value_decimal (k n : ℕ) {c : Char} (hdigit : c.isDigit = false) (hdot : c ≠ '.')
    (he : c ≠ 'e' ∧ c ≠ 'E') (rest : List Char) :
    value (k + 1) (Nat.toDigits 10 n ++ c :: rest) = some (.number n 0, c :: rest) := by
  have hsigned := signed_decimal n hdigit hdot he rest
  obtain ⟨d, ds, hds⟩ := List.exists_cons_of_ne_nil (Nat.toDigits_ne_nil (n := n) (b := 10))
  have hd : d.isDigit = true :=
    Nat.isDigit_of_mem_toDigits (by decide) (by decide) (hds ▸ List.mem_cons_self)
  have hne : ∀ c : Char, c.isDigit = false → d ≠ c := by
    rintro c hc rfl
    rw [hc] at hd
    cases hd
  have hws : isWs d = false := by
    simp [isWs, hne ' ' (by decide), hne '\t' (by decide), hne '\n' (by decide),
      hne '\r' (by decide)]
  rw [hds, List.cons_append] at hsigned ⊢
  rw [value.eq_2, skipWs_cons hws]
  split
  all_goals first
    | exact hsigned
    | next heq => exact absurd (List.cons.inj heq).1 (hne _ (by decide))

/-- A text in quotes is read as a string. -/
theorem value_quote (k : ℕ) (text : List Char) :
    value (k + 1) ('"' :: text) = (stringBody text).map fun r => (.string r.1, r.2) := rfl

/-- A text in braces is read as an object. -/
theorem value_brace (k : ℕ) (text : List Char) :
    value (k + 1) ('{' :: '"' :: text)
      = (items (member (value k)) '}' k ('"' :: text)).map fun r => (.object r.1, r.2) := rfl

@[simp] theorem value_space (n : ℕ) (text : List Char) : value n (' ' :: text) = value n text := by
  cases n <;> rfl

@[simp] theorem member_space (read : Reader Json) (text : List Char) :
    member read (' ' :: text) = member read text := rfl

/-- A member is read up to its value. -/
theorem member_name {read : Reader Json} {name : List Char}
    (h : ∀ c ∈ name, c ≠ '"' ∧ c ≠ '\\' ∧ 0x20 ≤ c.toNat) (rest : List Char) :
    member read ('"' :: (name ++ '"' :: ':' :: rest))
      = (read rest).map fun r => ((name.map Char.toNat, r.1), r.2) := by
  change ((stringBody (name ++ '"' :: ':' :: rest)).bind _) = _
  rw [stringBody_name h]
  rfl

/-! ## Reading items -/

section Items

variable {item : Reader α} {close : Char} {n : ℕ} {x : α}

/-- An item before a comma. -/
theorem items_cons (h : item text = some (x, ',' :: rest)) :
    items item close (n + 1) text = (items item close n rest).map fun r => (x :: r.1, r.2) := by
  rw [items, h]
  rfl

/-- The item before the closing bracket. -/
theorem items_last (h : item text = some (x, close :: rest)) (hws : isWs close = false)
    (hcomma : close ≠ ',') : items item close (n + 1) text = some ([x], rest) := by
  rw [items, h]
  simp only [Option.bind_eq_bind, Option.bind_some, skipWs_cons hws, if_neg hcomma, if_true]

/-- An item that cannot be read. -/
theorem items_none (h : item text = none) : items item close n text = none := by
  cases n with
  | zero => rfl
  | succ n => rw [items, h]; rfl

/-- What is read first comes first. -/
theorem first_of_items (h : item text = some (x, rest)) {xs : List α} {rest' : List Char}
    (hitems : items item close n text = some (xs, rest')) : ∃ xs', xs = x :: xs' := by
  cases n with
  | zero => cases hitems
  | succ n =>
    rw [items, h] at hitems
    simp only [Option.bind_eq_bind, Option.bind_some] at hitems
    split at hitems
    · cases hitems
    · split_ifs at hitems
      · obtain ⟨r, -, hr⟩ := Option.map_eq_some_iff.mp hitems
        exact ⟨r.1, (Prod.mk.inj hr).1.symm⟩
      · exact ⟨[], (Prod.mk.inj (Option.some.inj hitems)).1.symm⟩

end Items

end Json

end Femtolog
