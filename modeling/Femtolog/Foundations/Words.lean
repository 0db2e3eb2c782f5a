import Mathlib.Data.Nat.ModEq
import Mathlib.Algebra.Order.Ring.Nat
import Mathlib.Tactic.Ring

/-!
# Foundations/Words — machine words that name positions of an unbounded stream

A free-running counter of width `w` names a position of an unbounded stream only modulo `2^w`.
Two counters whose positions are less than `2^w` apart still order them: the wrapping difference
of the words *is* the distance of the positions (`toNat_ofNat_sub_ofNat`).  Masking a word with
`2^k - 1` reads the position modulo `2^k` (`toNat_ofNat_and_mask`), since `2^k` divides `2^w`.
-/

namespace Femtolog

variable {w : ℕ}

/-! ## Distance -/

/-- **The wrapping difference of two words is the distance of the positions they name** — however
often either counter has wrapped. -/
theorem toNat_ofNat_sub_ofNat {a b : ℕ} (hab : a ≤ b) (hlt : b - a < 2 ^ w) :
    (BitVec.ofNat w b - BitVec.ofNat w a).toNat = b - a := by
  obtain ⟨d, rfl⟩ := Nat.exists_eq_add_of_le hab
  rw [Nat.add_sub_cancel_left] at hlt ⊢
  rw [BitVec.ofNat_add, BitVec.add_comm, BitVec.add_sub_cancel, BitVec.toNat_ofNat,
    Nat.mod_eq_of_lt hlt]

/-- Nearby positions named by one word are equal. -/
theorem eq_of_ofNat_eq {a b : ℕ} (hab : a ≤ b) (hlt : b - a < 2 ^ w)
    (h : BitVec.ofNat w a = BitVec.ofNat w b) : a = b := by
  have hd := toNat_ofNat_sub_ofNat hab hlt
  rw [h, BitVec.sub_self, BitVec.toNat_zero] at hd
  omega

/-- A word names the position it counts. -/
theorem toNat_ofNat_of_lt {n : ℕ} (hn : n < 2 ^ w) : (BitVec.ofNat w n).toNat = n := by
  rw [BitVec.toNat_ofNat, Nat.mod_eq_of_lt hn]

/-- …and is named by it. -/
theorem eq_ofNat_of_toNat_eq {x : BitVec w} {n : ℕ} (h : x.toNat = n) : x = BitVec.ofNat w n := by
  rw [← h, BitVec.ofNat_toNat, BitVec.setWidth_eq]

/-- Taking back what was counted. -/
theorem ofNat_sub_ofNat {a b : ℕ} (hba : b ≤ a) :
    BitVec.ofNat w a - BitVec.ofNat w b = BitVec.ofNat w (a - b) := by
  obtain ⟨d, rfl⟩ := Nat.exists_eq_add_of_le hba
  rw [Nat.add_sub_cancel_left, BitVec.ofNat_add, BitVec.add_comm, BitVec.add_sub_cancel]

/-- One shifted up to a bit below the width. -/
theorem one_shiftLeft_eq_ofNat {k : ℕ} (hk : k < w) :
    1#w <<< k = BitVec.ofNat w (2 ^ k) := by
  have hlt : 1 < 2 ^ w := Nat.one_lt_two_pow (by omega)
  refine eq_ofNat_of_toNat_eq ?_
  rw [BitVec.toNat_shiftLeft, toNat_ofNat_of_lt hlt, Nat.one_shiftLeft,
    Nat.mod_eq_of_lt (Nat.pow_lt_pow_right (by norm_num) hk)]

/-! ## Masks -/

/-- The word `2^k - 1`, as a number. -/
theorem toNat_twoPow_sub_one {k : ℕ} (hk : k < w) :
    (BitVec.ofNat w (2 ^ k) - 1#w).toNat = 2 ^ k - 1 := by
  have hlt : 2 ^ k < 2 ^ w := Nat.pow_lt_pow_right (by norm_num) hk
  have hpos : 1 ≤ 2 ^ k := Nat.one_le_two_pow
  exact toNat_ofNat_sub_ofNat hpos (by omega)

/-- **A masked word is the position it names, modulo the mask's power of two.** -/
theorem toNat_ofNat_and_mask {k : ℕ} (hk : k < w) (p : ℕ) :
    (BitVec.ofNat w p &&& (BitVec.ofNat w (2 ^ k) - 1#w)).toNat = p % 2 ^ k := by
  rw [BitVec.toNat_and, toNat_twoPow_sub_one hk, Nat.and_two_pow_sub_one_eq_mod,
    BitVec.toNat_ofNat, Nat.mod_mod_of_dvd _ (Nat.pow_dvd_pow 2 hk.le)]

/-! ## Sums -/

/-- The wrapping sum of a list of lengths names their sum. -/
theorem foldl_add_ofNat (ns : List ℕ) (a : ℕ) :
    (ns.map (BitVec.ofNat w)).foldl (· + ·) (BitVec.ofNat w a) = BitVec.ofNat w (a + ns.sum) := by
  induction ns generalizing a with
  | nil => simp
  | cons n ns ih =>
    rw [List.map_cons, List.foldl_cons, ← BitVec.ofNat_add, ih, List.sum_cons, Nat.add_assoc]

end Femtolog
