import Mathlib.Data.List.TakeWhile
import Femtolog.Foundations.Encoding

/-!
# Foundations/Text — strings that a zero byte ends, and decimal numbers

A `CString` is a text without zero bytes; in memory one follows it (`cells`).  `compareCells`
runs over two blocks up to the first difference, `cText` is what a block holds up to its first zero
byte, undefined if it has none.

A number in decimal digits is read back from them, so different numbers have different digits
(`decimal_injective`).
-/

namespace Femtolog

/-! ## C strings -/

/-- **A C string**: a text without the byte that ends it. -/
@[ext] structure CString where
  text : List UInt8
  notMem : 0 ∉ text
  deriving DecidableEq

namespace CString

/-- The string as it lies in memory. -/
def cells (s : CString) : List UInt8 := s.text ++ [0]

/-- A string literal. -/
def literal (text : String) (h : 0 ∉ ascii text := by decide) : CString := ⟨ascii text, h⟩

/-- `c_str()`: a text is read up to its first zero byte. -/
def ofText (text : List UInt8) : CString where
  text := text.takeWhile (· ≠ 0)
  notMem h := absurd (List.mem_takeWhile_imp h) (by decide)

theorem text_ofText {text : List UInt8} (h : 0 ∉ text) : (ofText text).text = text := by
  rw [ofText, List.takeWhile_eq_self_iff]
  exact fun c hc => decide_eq_true (ne_of_mem_of_not_mem hc h)

end CString

/-- What a block of cells holds up to its first zero byte, undefined if it has none. -/
def cText (cells : List UInt8) : Option (List UInt8) :=
  if 0 ∈ cells then some (cells.takeWhile (· ≠ 0)) else none

/-- **A text is read back from its cells**, whatever follows them. -/
theorem cText_append {text : List UInt8} (h : 0 ∉ text) (rest : List UInt8) :
    cText (text ++ 0 :: rest) = some text := by
  have hall : ∀ c ∈ text, decide (c ≠ 0) = true := fun c hc =>
    decide_eq_true (ne_of_mem_of_not_mem hc h)
  rw [cText, if_pos (List.mem_append_right _ List.mem_cons_self),
    List.takeWhile_append_of_pos hall, List.takeWhile_cons_of_neg (by decide), List.append_nil]

/-- **A string is read back from memory.** -/
theorem CString.cText_cells (s : CString) (rest : List UInt8) :
    cText (s.cells ++ rest) = some s.text := by
  rw [CString.cells, List.append_assoc]
  exact cText_append s.notMem rest

theorem CString.length_cells (s : CString) : s.cells.length = s.text.length + 1 := by
  rw [CString.cells, List.length_append, List.length_singleton]

/-- A text is the start of the cells it is read from. -/
theorem take_of_cText {cells text : List UInt8} (h : cText cells = some text) :
    cells.take text.length = text := by
  rw [cText] at h
  split_ifs at h
  obtain rfl := Option.some.inj h
  exact (List.prefix_iff_eq_take.mp (List.takeWhile_prefix _)).symm

theorem nul_notMem_of_cText {cells text : List UInt8} (h : cText cells = some text) : 0 ∉ text := by
  rw [cText] at h
  split_ifs at h
  obtain rfl := Option.some.inj h
  exact (CString.ofText cells).notMem

/-- An array of characters. -/
structure CharArray (n : ℕ) where
  cells : List UInt8
  length_cells : cells.length = n

namespace CharArray

variable {n : ℕ} {a : CharArray n}

/-- An array filled with zeros. -/
def zero (n : ℕ) : CharArray n := ⟨List.replicate n 0, List.length_replicate⟩

/-- The text of an array: what is in front of its first zero. -/
def text (a : CharArray n) : List UInt8 := a.cells.takeWhile (· ≠ 0)

/-- There is a zero in an array. -/
def Terminated (a : CharArray n) : Prop := 0 ∈ a.cells

theorem terminated_zero (h : 0 < n) : (zero n).Terminated :=
  List.mem_replicate.mpr ⟨h.ne', rfl⟩

/-- Copy cells to a position, if there is room for them. -/
def write (a : CharArray n) (pos : ℕ) (xs : List UInt8) : Option (CharArray n) :=
  if h : pos + xs.length ≤ n then
    some ⟨splice a.cells pos xs, (length_splice (a.length_cells.symm ▸ h)).trans a.length_cells⟩
  else none

theorem le_of_write {a' : CharArray n} {pos : ℕ} {xs : List UInt8} (h : a.write pos xs = some a') :
    pos + xs.length ≤ n := by
  rw [write] at h
  split_ifs at h
  assumption

/-- A copy behind what has been filled in. -/
theorem exists_write {front rest xs : List UInt8} (ha : a.cells = front ++ rest)
    (h : front.length + xs.length ≤ n) : ∃ a', a.write front.length xs = some a'
      ∧ a'.cells = (front ++ xs) ++ rest.drop xs.length := by
  refine ⟨_, dif_pos h, ?_⟩
  change splice a.cells front.length xs = _
  rw [splice, ha, List.take_left, ← List.drop_drop, List.drop_left]

theorem exists_write_start (a : CharArray n) {xs : List UInt8} (h : xs.length ≤ n) :
    ∃ a', a.write 0 xs = some a' ∧ a'.cells = xs ++ a.cells.drop xs.length :=
  @exists_write n a [] _ xs (List.nil_append _).symm (by rwa [List.length_nil, Nat.zero_add])

theorem cText_eq (h : a.Terminated) : cText a.cells = some a.text := if_pos h

theorem nul_notMem_text (a : CharArray n) : 0 ∉ a.text := (CString.ofText a.cells).notMem

end CharArray

/-! ## Comparing -/

/-- The first `n` cells of two blocks compared, up to the first difference; undefined past the end
of either. -/
def compareCells : List UInt8 → List UInt8 → ℕ → Option ℤ
  | _, _, 0 => some 0
  | a :: as, b :: bs, n + 1 =>
    if a < b then some (-1) else if b < a then some 1 else compareCells as bs n
  | _, _, _ + 1 => none

theorem compareCells_self (a : UInt8) (as bs : List UInt8) (n : ℕ) :
    compareCells (a :: as) (a :: bs) (n + 1) = compareCells as bs n := by
  rw [compareCells, if_neg (UInt8.lt_irrefl a), if_neg (UInt8.lt_irrefl a)]

/-- Two cells that differ end the comparison. -/
theorem exists_compareCells_of_ne {a b : UInt8} (h : a ≠ b) (as bs : List UInt8) (n : ℕ) :
    ∃ order, compareCells (a :: as) (b :: bs) (n + 1) = some order ∧ order ≠ 0 := by
  rw [compareCells]
  rcases UInt8.lt_or_lt_of_ne h with hlt | hlt
  · exact ⟨-1, if_pos hlt, by decide⟩
  · exact ⟨1, by rw [if_neg (UInt8.not_lt.mpr (UInt8.le_of_lt hlt)), if_pos hlt], by decide⟩

/-- **A string compared over the length of a word** equals it as far as the word goes: it starts
with the word.  The comparison does not leave the string. -/
theorem exists_compareCells (s : CString) {word : List UInt8} (hword : 0 ∉ word)
    (rest : List UInt8) : ∃ order, compareCells s.cells (word ++ rest) word.length = some order
      ∧ (order = 0 ↔ word <+: s.text) := by
  rw [CString.cells]
  generalize s.text = text
  induction word generalizing text with
  | nil => exact ⟨0, by rw [List.length_nil, compareCells], iff_of_true rfl List.nil_prefix⟩
  | cons c word ih =>
    have hne : (0 : UInt8) ≠ c := fun h => hword (h ▸ List.mem_cons_self)
    obtain _ | ⟨a, as⟩ := text
    · obtain ⟨order, horder, hzero⟩ := exists_compareCells_of_ne hne [] (word ++ rest) word.length
      exact ⟨order, horder, iff_of_false hzero (by simp)⟩
    · rcases eq_or_ne a c with rfl | ha
      · obtain ⟨order, horder, hiff⟩ := ih (fun h => hword (List.mem_cons_of_mem _ h)) as
        exact ⟨order, (compareCells_self a _ _ _).trans horder,
          hiff.trans (List.prefix_cons_inj a).symm⟩
      · obtain ⟨order, horder, hzero⟩ :=
          exists_compareCells_of_ne ha (as ++ [0]) (word ++ rest) word.length
        exact ⟨order, horder, iff_of_false hzero fun h => ha (List.cons_prefix_cons.mp h).1.symm⟩

/-! ## Decimal numbers -/

/-- A number as the formatter writes it. -/
def decimal (n : ℕ) : List UInt8 := (Nat.toDigits 10 n).map fun c => UInt8.ofNat c.toNat

theorem toNat_lt_of_isDigit {c : Char} (h : c.isDigit = true) : c.toNat < 0x80 := by
  rw [Char.isDigit, Bool.and_eq_true, decide_eq_true_eq, decide_eq_true_eq] at h
  exact lt_of_le_of_lt (UInt32.le_iff_toNat_le.mp h.2) (by decide)

theorem ofUInt8_ofNat {c : Char} (h : c.toNat < 256) : Char.ofUInt8 (UInt8.ofNat c.toNat) = c := by
  refine Char.toNat_inj.mp ?_
  change (UInt8.ofNat c.toNat).toNat = c.toNat
  rw [UInt8.toNat_ofNat', Nat.mod_eq_of_lt h]

theorem map_decimal (n : ℕ) : (decimal n).map Char.ofUInt8 = Nat.toDigits 10 n := by
  rw [decimal, List.map_map]
  refine (List.map_congr_left fun c hc => ofUInt8_ofNat ?_).trans (List.map_id _)
  exact (toNat_lt_of_isDigit (Nat.isDigit_of_mem_toDigits (by decide) (by decide) hc)).trans
    (by decide)

/-- **A number is read back from its digits.** -/
theorem decimal_injective : Function.Injective decimal := fun m n h => by
  have hdigits : Nat.toDigits 10 m = Nat.toDigits 10 n := by
    rw [← map_decimal, h, map_decimal]
  rw [← @Nat.ofDigitChars_ten_toDigits m, hdigits, Nat.ofDigitChars_ten_toDigits]

/-- A number has as few digits as it is small. -/
theorem length_decimal_le {n k : ℕ} (hk : 0 < k) (hn : n < 10 ^ k) : (decimal n).length ≤ k := by
  rw [decimal, List.length_map]
  exact (Nat.length_toDigits_le_iff (by decide) hk).mpr hn

/-- The characters of a number are digits. -/
theorem mem_decimal {n : ℕ} {b : UInt8} (h : b ∈ decimal n) : 0x30 ≤ b ∧ b ≤ 0x39 := by
  obtain ⟨c, hc, rfl⟩ := List.mem_map.mp h
  have hdigit := Nat.isDigit_of_mem_toDigits (by decide) (by decide) hc
  have hlt := toNat_lt_of_isDigit hdigit
  have hnat : (UInt8.ofNat c.toNat).toNat = c.toNat := by
    rw [UInt8.toNat_ofNat', Nat.mod_eq_of_lt (hlt.trans (by decide))]
  rw [Char.isDigit, Bool.and_eq_true, decide_eq_true_eq, decide_eq_true_eq] at hdigit
  rw [UInt8.le_iff_toNat_le, UInt8.le_iff_toNat_le, hnat]
  exact ⟨UInt32.le_iff_toNat_le.mp hdigit.1, UInt32.le_iff_toNat_le.mp hdigit.2⟩

end Femtolog
