import Mathlib.Data.Nat.Bitwise
import Mathlib.Data.List.Count
import Mathlib.Data.List.Induction

/-!
# Foundations/Bits — the set bits of a word, lowest first

`x &&& (x - 1)` is `x` without its lowest set bit (`getLsbD_clearLowest`), and `ctz` is the position
of that bit.  So a loop that takes the one and goes on with the other until nothing is left lists
the positions of all set bits in order (`setBits_of_ne_zero`).
-/

namespace Femtolog

/-! ## The lowest bit of a number -/

variable {X t : ℕ}

/-- A number ends in its lowest set bit. -/
theorem eq_of_lowest (hlow : ∀ i < t, X.testBit i = false) (ht : X.testBit t = true) :
    X = 2 ^ (t + 1) * (X / 2 ^ (t + 1)) + 2 ^ t := by
  have hmod : X % 2 ^ (t + 1) = 2 ^ t := by
    refine Nat.eq_of_testBit_eq fun i => ?_
    rw [Nat.testBit_mod_two_pow, Nat.testBit_two_pow]
    rcases lt_trichotomy i t with hi | rfl | hi
    · rw [hlow i hi]
      simp [hi.ne']
    · simp [ht]
    · simp [hi.ne, Nat.not_lt.mpr hi]
  rw [← hmod]
  exact (Nat.div_add_mod X _).symm

/-- **Taking one away and keeping the common bits** clears the lowest set bit. -/
theorem testBit_and_pred (hlow : ∀ i < t, X.testBit i = false) (ht : X.testBit t = true) (i : ℕ) :
    (X &&& (X - 1)).testBit i = (X.testBit i && decide (i ≠ t)) := by
  have hX := eq_of_lowest hlow ht
  generalize X / 2 ^ (t + 1) = Q at hX
  have hpos := Nat.two_pow_pos t
  have hlt : 2 ^ t < 2 ^ (t + 1) := Nat.pow_lt_pow_right (by decide) (Nat.lt_succ_self t)
  have hpred : X - 1 = 2 ^ (t + 1) * Q + (2 ^ t - 1) := by omega
  rw [Nat.testBit_and]
  rcases lt_trichotomy i t with hi | rfl | hi
  · rw [hlow i hi, Bool.false_and, Bool.false_and]
  · rw [hpred, Nat.testBit_two_pow_mul_add _ (by omega), if_pos (Nat.lt_succ_self i),
      Nat.testBit_two_pow_sub_one]
    simp
  · have hge : ¬i < t + 1 := by omega
    have hsame : (X - 1).testBit i = X.testBit i := by
      rw [hpred, hX, Nat.testBit_two_pow_mul_add _ (by omega), if_neg hge,
        Nat.testBit_two_pow_mul_add _ hlt, if_neg hge]
    rw [hsame, Bool.and_self, decide_eq_true hi.ne', Bool.and_true]

/-! ## Words -/

variable {w : ℕ} {x : BitVec w}

/-- A word without its lowest set bit. -/
def clearLowest (x : BitVec w) : BitVec w := x &&& (x - 1#w)

theorem toNat_clearLowest (hx : x ≠ 0#w) : (clearLowest x).toNat = x.toNat &&& (x.toNat - 1) := by
  have hpos := BitVec.toNat_pos_of_ne_zero hx
  have hone : (1#w).toNat = 1 := by
    have := x.isLt
    rw [BitVec.toNat_ofNat, Nat.mod_eq_of_lt (by omega)]
  have hle : 1#w ≤ x := by
    rw [BitVec.le_def, hone]
    exact hpos
  rw [clearLowest, BitVec.toNat_and, BitVec.toNat_sub_of_le hle, hone]

/-- **What is left of a word** has all set bits but the lowest. -/
theorem getLsbD_clearLowest (hx : x ≠ 0#w) (i : ℕ) :
    (clearLowest x).getLsbD i = (x.getLsbD i && decide (i ≠ x.ctz.toNat)) := by
  rw [← BitVec.testBit_toNat, toNat_clearLowest hx]
  exact testBit_and_pred (fun i hi => BitVec.getLsbD_false_of_lt_ctz hi)
    (BitVec.getLsbD_true_ctz_of_ne_zero hx) i

theorem clearLowest_lt (hx : x ≠ 0#w) : (clearLowest x).toNat < x.toNat := by
  rw [toNat_clearLowest hx]
  exact lt_of_le_of_lt Nat.and_le_right (Nat.sub_lt (BitVec.toNat_pos_of_ne_zero hx) Nat.one_pos)

/-- The positions of the set bits, lowest first. -/
def setBits (x : BitVec w) : List ℕ := (List.range w).filter x.getLsbD

@[simp] theorem setBits_zero : setBits 0#w = [] := by
  simp [setBits]

/-- **The lowest set bit comes first**, then those of what is left. -/
theorem setBits_of_ne_zero (hx : x ≠ 0#w) :
    setBits x = x.ctz.toNat :: setBits (clearLowest x) := by
  have hset := BitVec.getLsbD_true_ctz_of_ne_zero hx
  have hlt : x.ctz.toNat < w := BitVec.lt_of_getLsbD hset
  have hsplit : List.range w = List.range x.ctz.toNat
      ++ x.ctz.toNat :: List.range' (x.ctz.toNat + 1) (w - (x.ctz.toNat + 1)) := by
    have happ := List.range'_append_1 (s := 0) (m := x.ctz.toNat) (n := w - x.ctz.toNat)
    have hrest : w - x.ctz.toNat = w - (x.ctz.toNat + 1) + 1 := by omega
    rw [Nat.zero_add, Nat.add_sub_cancel' hlt.le, hrest, List.range'_succ] at happ
    rw [List.range_eq_range', List.range_eq_range', happ]
  have hbelow : (List.range x.ctz.toNat).filter x.getLsbD = [] := by
    refine List.filter_eq_nil_iff.mpr fun i hi => ?_
    rw [BitVec.getLsbD_false_of_lt_ctz (List.mem_range.mp hi)]
    exact Bool.false_ne_true
  have hbelow' : (List.range x.ctz.toNat).filter (clearLowest x).getLsbD = [] := by
    refine List.filter_eq_nil_iff.mpr fun i hi => ?_
    rw [getLsbD_clearLowest hx, BitVec.getLsbD_false_of_lt_ctz (List.mem_range.mp hi)]
    exact Bool.false_ne_true
  have habove : (List.range' (x.ctz.toNat + 1) (w - (x.ctz.toNat + 1))).filter x.getLsbD
      = (List.range' (x.ctz.toNat + 1) (w - (x.ctz.toNat + 1))).filter (clearLowest x).getLsbD := by
    refine List.filter_congr fun i hi => ?_
    have hne : i ≠ x.ctz.toNat := by
      have := (List.mem_range'_1.mp hi).1
      omega
    rw [getLsbD_clearLowest hx, decide_eq_true hne, Bool.and_true]
  have hcleared : ¬(clearLowest x).getLsbD x.ctz.toNat = true := by
    rw [getLsbD_clearLowest hx]
    simp
  rw [setBits, setBits, hsplit, List.filter_append, List.filter_append, hbelow, hbelow',
    List.filter_cons_of_pos hset, List.filter_cons_of_neg hcleared, habove]
  rfl

/-! ## Words from lists -/

/-- The positions where a list has an element, as the positions of a word. -/
theorem findIdxs_eq_filter {α : Type*} (p : α → Bool) (xs : List α) :
    xs.findIdxs p = (List.range xs.length).filter fun i => (xs[i]?).any p := by
  induction xs using List.reverseRecOn with
  | nil => rfl
  | append_singleton xs a ih =>
    have hsame : (List.range xs.length).filter (fun i => ((xs ++ [a])[i]?).any p)
        = (List.range xs.length).filter fun i => (xs[i]?).any p := by
      refine List.filter_congr fun i hi => ?_
      rw [List.getElem?_append_left (List.mem_range.mp hi)]
    rw [List.findIdxs_append, ih, List.length_append, List.length_singleton, List.range_succ,
      List.filter_append, hsame, Nat.zero_add, List.findIdxs_singleton]
    cases hp : p a <;> simp [hp]

/-- The word whose bits are given, lowest first. -/
theorem setBits_ofBoolListLE (bs : List Bool) (hw : bs.length = w) :
    setBits ((BitVec.ofBoolListLE bs).setWidth w) = bs.findIdxs id := by
  subst hw
  rw [findIdxs_eq_filter, setBits]
  refine List.filter_congr fun i hi => ?_
  rw [BitVec.setWidth_eq, BitVec.getLsbD_ofBoolListLE, List.getD_eq_getElem?_getD]
  cases bs[i]? with
  | none => rfl
  | some b => rfl

end Femtolog
