import Femtolog.Queue.Spmc
import Femtolog.Queue.Spsc

/-!
# Queue/Capacity — the capacity a queue is reserved with

`next_power_of_2` rounds the requested capacity up to a power of two by a shift, and a queue's mask
is that less one.  Beyond `2^63` the next power of two does not fit in a word, and the count of the
shift is the width of it: there the result is undefined.  Up to `2^63` both queues get what they
need (`reservesRight_iff`).
-/

namespace Femtolog

/-! ## Rounding -/

section Rounding

variable {n c : Size}

/-- The powers of two that have room for a capacity. -/
def Rooms (n : Size) : Set ℕ := {m | m.isPowerOfTwo ∧ max n.toNat 2 ≤ m}

/-- A word less one, where it is not zero. -/
theorem toNat_sub_one (h : 0 < n.toNat) : (n - 1#64).toNat = n.toNat - 1 := by
  have hone : (n - 1#64).toNat = (2 ^ 64 - 1 + n.toNat) % 2 ^ 64 := BitVec.toNat_sub ..
  have hlt := n.isLt
  omega

/-- **The shift** gives the next power of two behind what is less than the capacity. -/
theorem two_pow_le_of_clz (hn : 1 < n.toNat) {k : ℕ} (hk : k = 64 - (n - 1#64).clz.toNat) :
    0 < k ∧ 2 ^ (k - 1) < n.toNat ∧ n.toNat ≤ 2 ^ k := by
  have hsub := toNat_sub_one (n := n) (by omega)
  have hne : n - 1#64 ≠ 0#64 := fun h => by
    rw [h, BitVec.toNat_zero] at hsub
    omega
  have hclz : (n - 1#64).clz.toNat < 64 := by
    have := BitVec.clz_lt_iff_ne_zero.mpr hne
    simpa [BitVec.lt_def] using this
  have hlow := BitVec.two_pow_sub_clz_le_toNat_of_ne_zero (by norm_num) hne
  have hhigh := BitVec.toNat_lt_two_pow_sub_clz (x := n - 1#64)
  have hexp : 64 - 1 - (n - 1#64).clz.toNat = k - 1 := by omega
  rw [hexp, hsub] at hlow
  rw [← hk, hsub] at hhigh
  exact ⟨by omega, by omega, by omega⟩

/-- **The rounded capacity is the least** power of two with room. -/
theorem isLeast_of_nextPowerOf2 (h : nextPowerOf2 n = some c) : IsLeast (Rooms n) c.toNat := by
  have hpow : c.toNat.isPowerOfTwo := by
    obtain ⟨k, -, hk, rfl⟩ := exists_eq_twoPow_of_nextPowerOf2 h
    exact ⟨k, toNat_ofNat_of_lt (Nat.pow_lt_pow_right (by norm_num) hk)⟩
  rw [nextPowerOf2] at h
  dsimp only at h
  split_ifs at h with h1 h2 h3
  · obtain rfl := Option.some.inj h
    exact ⟨⟨hpow, max_le (h1.trans (by decide)) le_rfl⟩, fun m hm => (le_max_right _ _).trans hm.2⟩
  · obtain rfl := Option.some.inj h
    rw [BitVec.not_le] at h1
    exact ⟨⟨hpow, max_le le_rfl h1⟩, fun m hm => (le_max_left _ _).trans hm.2⟩
  · obtain rfl := Option.some.inj h
    rw [BitVec.not_le] at h1
    rw [one_shiftLeft_eq_ofNat h3] at hpow ⊢
    rw [toNat_ofNat_of_lt (Nat.pow_lt_pow_right (by norm_num) h3)] at hpow ⊢
    obtain ⟨hpos, hlow, hhigh⟩ := two_pow_le_of_clz h1 rfl
    refine ⟨⟨hpow, max_le hhigh (Nat.le_self_pow hpos.ne' 2)⟩, ?_⟩
    rintro m ⟨⟨j, rfl⟩, hm⟩
    have hlt := hlow.trans_le ((le_max_left _ _).trans hm)
    have hexp := (Nat.pow_lt_pow_iff_right (by norm_num)).mp hlt
    exact Nat.pow_le_pow_right (by norm_num) (by omega)

/-- **The rounding is defined** up to `2^63`. -/
theorem exists_nextPowerOf2_iff : (∃ c, nextPowerOf2 n = some c) ↔ n.toNat ≤ 2 ^ 63 := by
  constructor
  · rintro ⟨c, h⟩
    have hle := (isLeast_of_nextPowerOf2 h).1.2
    obtain ⟨k, -, hk, rfl⟩ := exists_eq_twoPow_of_nextPowerOf2 h
    rw [toNat_ofNat_of_lt (Nat.pow_lt_pow_right (by norm_num) hk)] at hle
    exact (le_max_left _ _).trans (hle.trans (Nat.pow_le_pow_right (by norm_num) (by omega)))
  · intro hle
    rw [nextPowerOf2]
    dsimp only
    split_ifs with h1 h2 h3
    · exact ⟨_, rfl⟩
    · exact ⟨_, rfl⟩
    · exact ⟨_, rfl⟩
    · rw [BitVec.not_le] at h1
      have hlow := (two_pow_le_of_clz h1 rfl).2.1
      have hpow : 2 ^ 63 ≤ 2 ^ (64 - (n - 1#64).clz.toNat - 1) :=
        Nat.pow_le_pow_right (by norm_num) (by omega)
      omega

end Rounding

/-! ## Reserving -/

/-- **A buffer for a capacity**, whose mask takes indices to places in it. -/
structure Masked (n capacity mask : Size) : Prop where
  le : n ≤ capacity
  mask_eq : mask = capacity - 1#64
  and_mask : ∀ i : Size, (i &&& mask).toNat = i.toNat % capacity.toNat

/-- **A queue is reserved as it should**: the capacity is rounded up as little as possible, and
unless there is no memory the queue has a buffer for it. -/
structure ReservesRight (n : Size) : Prop where
  rounds : ∃ c, nextPowerOf2 n = some c ∧ IsLeast (Rooms n) c.toNat
  spsc : ∀ mem, ∃ q, SpscQueue.reserve mem n = some q
    ∧ (q.buffer = none ∨ Masked n q.capacity q.mask)
  spmc : ∀ mem, ∃ q, SpmcQueue.reserve mem n = some q
    ∧ (q.buffer = none ∨ Masked n q.capacity q.mask)

/-- The mask of a rounded capacity. -/
theorem masked_of_nextPowerOf2 {n c : Size} (h : nextPowerOf2 n = some c) :
    Masked n c (c - 1#64) := by
  have hle := (le_max_left _ _).trans (isLeast_of_nextPowerOf2 h).1.2
  refine ⟨hle, rfl, fun i => ?_⟩
  obtain ⟨k, -, hk, rfl⟩ := exists_eq_twoPow_of_nextPowerOf2 h
  rw [toNat_ofNat_of_lt (Nat.pow_lt_pow_right (by norm_num) hk)]
  have hmask := toNat_ofNat_and_mask hk i.toNat
  rwa [BitVec.ofNat_toNat, BitVec.setWidth_eq] at hmask

/-- **When queues are reserved as they should**: for a capacity of at most `2^63`. -/
theorem reservesRight_iff (n : Size) : ReservesRight n ↔ n.toNat ≤ 2 ^ 63 := by
  constructor
  · intro h
    obtain ⟨c, hc, -⟩ := h.rounds
    exact exists_nextPowerOf2_iff.mp ⟨c, hc⟩
  · intro hle
    obtain ⟨c, hc⟩ := exists_nextPowerOf2_iff.mpr hle
    refine ⟨⟨c, hc, isLeast_of_nextPowerOf2 hc⟩, fun mem => ?_, fun mem => ?_⟩
    · rw [SpscQueue.reserve, hc]
      refine ⟨_, rfl, ?_⟩
      dsimp only
      cases mem.alloc (c + kCacheSize).toNat with
      | none => exact .inl rfl
      | some block => exact .inr (masked_of_nextPowerOf2 hc)
    · rw [SpmcQueue.reserve, hc]
      refine ⟨_, rfl, ?_⟩
      dsimp only
      cases mem.alloc (c + kCacheSize).toNat with
      | none => exact .inl rfl
      | some block => exact .inr (masked_of_nextPowerOf2 hc)

/-- One byte more than the greatest power of two that fits in a word. -/
theorem not_reservesRight : ¬ReservesRight (BitVec.ofNat 64 (2 ^ 63 + 1)) := by
  rintro ⟨⟨c, hc, -⟩, -, -⟩
  have hnone : nextPowerOf2 (BitVec.ofNat 64 (2 ^ 63 + 1)) = none := by decide
  rw [hnone] at hc
  cases hc

end Femtolog
