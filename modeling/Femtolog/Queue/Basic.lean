import Mathlib.Data.Nat.Log
import Femtolog.Foundations.Words
import Femtolog.Foundations.RingStore

/-!
# Queue/Basic — what the two byte queues share

`SpscQueue` and `SpmcQueue` keep their bytes in one power-of-two buffer and address it by masked
64-bit indices.  Here are the words and bytes they compute with, their common status codes, the
rounding of the requested capacity (`nextPowerOf2`), the allocation, and the `memcpy` calls by which
a run of bytes is copied into or out of the buffer: one call, or two around its end (`segments`).
-/

namespace Femtolog

/-- `std::size_t`. -/
abbrev Size := BitVec 64

/-- `std::byte`. -/
abbrev Byte := UInt8

/-- `SpscQueueStatus` and `SpmcQueueStatus`, which have the same members. -/
inductive QueueStatus
  | kOk
  | kUninitialized
  | kUnderflow
  | kOverflow
  | kSizeIsZero
  deriving DecidableEq, Repr

/-- The size argument that goes with a run of bytes. -/
def sizeWord (data : List Byte) : Size := BitVec.ofNat 64 data.length

/-- The loop that adds up `data_sizes[0..count)`. -/
def totalSize (sizes : List Size) : Size := sizes.foldl (· + ·) 0#64

/-! ## Capacity -/

/-- `next_power_of_2`.  `none` stands for a shift count of 64 or more, which C++ leaves
undefined. -/
def nextPowerOf2 (n : Size) : Option Size :=
  if n ≤ 1#64 then some 2#64
  else if n &&& (n - 1#64) = 0#64 then some n
  else
    let count := 64 - (n - 1#64).clz.toNat
    if count < 64 then some (1#64 <<< count) else none

/-- **The rounded capacity is a power of two**, and at least two. -/
theorem exists_eq_twoPow_of_nextPowerOf2 {n c : Size} (h : nextPowerOf2 n = some c) :
    ∃ k, 0 < k ∧ k < 64 ∧ c = BitVec.ofNat 64 (2 ^ k) := by
  rw [nextPowerOf2] at h
  dsimp only at h
  split_ifs at h with h1 h2 h3
  · exact ⟨1, by norm_num, by norm_num, (Option.some.inj h).symm⟩
  · have hn : 1 < n.toNat := by simpa [BitVec.le_def] using h1
    have hsub : (n - 1#64).toNat = n.toNat - 1 := by
      have := toNat_ofNat_sub_ofNat (w := 64) (a := 1) (b := n.toNat) hn.le (by omega)
      simpa using this
    have hand : n.toNat &&& (n.toNat - 1) = 0 := by
      rw [← hsub, ← BitVec.toNat_and, h2, BitVec.toNat_zero]
    obtain ⟨k, hk⟩ := (Nat.and_sub_one_eq_zero_iff_isPowerOfTwo (by omega)).mp hand
    have hlt : 2 ^ k < 2 ^ 64 := hk ▸ n.isLt
    have hk0 : k ≠ 0 := by
      rintro rfl
      omega
    exact ⟨k, Nat.pos_of_ne_zero hk0, (Nat.pow_lt_pow_iff_right (by norm_num)).mp hlt,
      (Option.some.inj h).symm.trans (eq_ofNat_of_toNat_eq hk)⟩
  · have hne : n - 1#64 ≠ 0#64 := fun h0 => h1 (by bv_omega)
    have hlt : (n - 1#64).clz.toNat < 64 := by
      have := BitVec.clz_lt_iff_ne_zero.mpr hne
      simpa [BitVec.lt_def] using this
    exact ⟨64 - (n - 1#64).clz.toNat, by omega, h3,
      (Option.some.inj h).symm.trans (one_shiftLeft_eq_ofNat h3)⟩

/-! ## Allocation -/

/-- `core::kCacheSize`. -/
def kCacheSize : Size := 64#64

/-- `aligned_alloc_wrapper`: a block of the size asked for with whatever bytes it has, or null. -/
structure Allocator where
  alloc : ℕ → Option (List Byte)
  length_alloc : ∀ {n : ℕ} {block : List Byte}, alloc n = some block → block.length = n

/-- An allocator that never fails and hands out zeroed blocks. -/
def Allocator.zeroed : Allocator where
  alloc n := some (List.replicate n 0)
  length_alloc h := by
    obtain rfl := Option.some.inj h
    exact List.length_replicate

/-- The block `reserve` asks for holds the capacity and one cache line more. -/
theorem length_of_alloc {mem : Allocator} {k : ℕ} (hk : k < 64) {block : List Byte}
    (h : mem.alloc (BitVec.ofNat 64 (2 ^ k) + kCacheSize).toNat = some block) :
    block.length = 2 ^ k + 64 := by
  have hpow : 2 ^ k ≤ 2 ^ 63 := Nat.pow_le_pow_right (by norm_num) (by omega)
  rw [mem.length_alloc h, kCacheSize, BitVec.toNat_add, toNat_ofNat_of_lt (by omega)]
  exact Nat.mod_eq_of_lt (by simpa using (by omega : 2 ^ k + 64 < 2 ^ 64))

/-! ## The `memcpy` calls of a copy -/

/-- The runs `(offset into buffer_, length)` in which `size` bytes are copied at index `idx`: up to
the end of the buffer, then from its start. -/
def segments (mask idx size : Size) : List (ℕ × ℕ) :=
  let pos := idx &&& mask
  let toEnd := mask + 1#64 - pos
  if size ≤ toEnd then [(pos.toNat, size.toNat)]
  else [(pos.toNat, toEnd.toNat), (0, (size - toEnd).toNat)]

/-- The runs of a bulk copy: piece after piece, each at the index the last one ended at. -/
def bulkSegments (mask : Size) : Size → List Size → List (ℕ × ℕ)
  | _, [] => []
  | idx, size :: sizes => segments mask idx size ++ bulkSegments mask (idx + size) sizes

section Layout

variable {k : ℕ} {mask : Size}

/-- **The runs of a copy lay out its bytes** at the position the index names. -/
theorem covers_segments (hk : k < 64) (hmask : mask = BitVec.ofNat 64 (2 ^ k) - 1#64) (p : ℕ)
    {n : ℕ} (hn : n ≤ 2 ^ k) :
    Covers (2 ^ k) p (segments mask (BitVec.ofNat 64 p) (BitVec.ofNat 64 n)) n := by
  subst hmask
  have hpow : 2 ^ k < 2 ^ 64 := Nat.pow_lt_pow_right (by norm_num) hk
  have hpos : 0 < 2 ^ k := Nat.two_pow_pos k
  have hmod : p % 2 ^ k < 2 ^ k := Nat.mod_lt _ hpos
  have hidx := toNat_ofNat_and_mask (w := 64) hk p
  have hsize : (BitVec.ofNat 64 n).toNat = n := toNat_ofNat_of_lt (by omega)
  have hend : (BitVec.ofNat 64 (2 ^ k) - 1#64 + 1#64
      - (BitVec.ofNat 64 p &&& (BitVec.ofNat 64 (2 ^ k) - 1#64))).toNat = 2 ^ k - p % 2 ^ k := by
    rw [BitVec.sub_add_cancel, eq_ofNat_of_toNat_eq hidx]
    exact toNat_ofNat_sub_ofNat (by omega) (by omega)
  have hwrap := Covers.wrap (c := 2 ^ k) (p := p) (n := n) hpos hn
  rw [segments]
  simp only [BitVec.le_def, hsize, hend, hidx]
  split_ifs at hwrap ⊢ with hfit
  · exact hwrap
  · rwa [eq_ofNat_of_toNat_eq hend, toNat_ofNat_sub_ofNat (by omega) (by omega)]

/-- **…and so do the runs of a bulk copy.** -/
theorem covers_bulkSegments (hk : k < 64) (hmask : mask = BitVec.ofNat 64 (2 ^ k) - 1#64) (p : ℕ)
    {ns : List ℕ} (hn : ns.sum ≤ 2 ^ k) :
    Covers (2 ^ k) p (bulkSegments mask (BitVec.ofNat 64 p) (ns.map (BitVec.ofNat 64))) ns.sum := by
  induction ns generalizing p with
  | nil => exact .nil p
  | cons n ns ih =>
    rw [List.sum_cons] at hn ⊢
    rw [List.map_cons, bulkSegments, ← BitVec.ofNat_add]
    exact (covers_segments hk hmask p (by omega)).append (ih (p + n) (by omega))

end Layout

end Femtolog
