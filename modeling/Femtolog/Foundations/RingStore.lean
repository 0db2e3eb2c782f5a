import Mathlib.Data.Nat.ModEq
import Femtolog.Foundations.Memory

/-!
# Foundations/RingStore — a window of a stream, kept in a ring

A ring of `c` cells keeps the window `[lo, hi)` of an unbounded stream `s` when every position of
the window is found at its residue modulo `c` (`Holds`).  A run of cells that does not cross the
end of the ring is a **segment** `(offset, length)`; a range of stream positions is laid out by a
list of segments (`Covers`), at most two for one range.  Writing the segments one at a time extends
the window at its upper end without touching a position inside it (`Holds.write`), and reading them
one at a time returns the stream (`Holds.read`).
-/

namespace Femtolog

variable {α : Type*} {c : ℕ}

/-! ## Residues -/

/-- Positions less than one turn of the ring apart share no cell. -/
theorem mod_ne_of_lt_of_lt_add {a b : ℕ} (hab : a < b) (hb : b < a + c) : a % c ≠ b % c := by
  intro h
  have hdvd : c ∣ b - a := (Nat.modEq_iff_dvd' hab.le).mp h
  have := Nat.le_of_dvd (by omega) hdvd
  omega

/-- Inside a segment the residue counts on with the position. -/
theorem add_mod_of_segment {p j n : ℕ} (h : p % c + n ≤ c) (hj : j < n) :
    (p + j) % c = p % c + j := by
  have hj' : j % c = j := Nat.mod_eq_of_lt (by omega)
  rw [Nat.add_mod, hj', Nat.mod_eq_of_lt (by omega)]

/-! ## The window -/

/-- **The ring `m` keeps the window `[lo, hi)` of the stream `s`.** -/
def Holds (c : ℕ) (m s : List α) (lo hi : ℕ) : Prop :=
  ∀ p, lo ≤ p → p < hi → m[p % c]? = s[p]?

namespace Holds

variable {m s : List α} {lo hi : ℕ}

/-- A smaller window is kept too. -/
theorem mono {lo' hi' : ℕ} (h : Holds c m s lo hi) (hlo : lo ≤ lo') (hhi : hi' ≤ hi) :
    Holds c m s lo' hi' :=
  fun p h1 h2 => h p (by omega) (by omega)

/-- The window only reads the stream below its upper end: an extension can be forgotten. -/
theorem of_append_right {t : List α} (h : Holds c m (s ++ t) lo hi) (hhi : hi ≤ s.length) :
    Holds c m s lo hi := fun p h1 h2 => by
  have := h p h1 h2
  rwa [List.getElem?_append_left (by omega)] at this

/-- An empty window is kept by anything. -/
theorem empty (h : hi ≤ lo) : Holds c m s lo hi := fun _ _ _ => by omega

/-- A write of one segment at the upper end leaves the window alone: its cells are less than a turn
away. -/
theorem getElem?_write {xs : List α} (hseg : hi % c + xs.length ≤ c) (hm : c ≤ m.length)
    (hroom : hi + xs.length ≤ lo + c) {p : ℕ} (h1 : lo ≤ p) (h2 : p < hi) :
    (splice m (hi % c) xs)[p % c]? = m[p % c]? := by
  rw [getElem?_splice (by omega), if_neg]
  rintro ⟨h3, h4⟩
  obtain ⟨j, hj⟩ := Nat.exists_eq_add_of_le h3
  have hjn : j < xs.length := by omega
  have hres := add_mod_of_segment hseg hjn
  exact mod_ne_of_lt_of_lt_add (c := c) (a := p) (b := hi + j) (by omega) (by omega) (by omega)

/-- **Writing one segment at the upper end extends the window.** -/
theorem write (xs : List α) (h : Holds c m s lo hi) (hs : hi = s.length)
    (hseg : hi % c + xs.length ≤ c) (hm : c ≤ m.length) (hroom : hi + xs.length ≤ lo + c) :
    Holds c (splice m (hi % c) xs) (s ++ xs) lo (hi + xs.length) := by
  intro p h1 h2
  by_cases hp : p < hi
  · rw [getElem?_write hseg hm hroom h1 hp, List.getElem?_append_left (by omega)]
    exact h p h1 hp
  · obtain ⟨j, rfl⟩ := Nat.exists_eq_add_of_le (Nat.le_of_not_lt hp)
    have hj : j < xs.length := by omega
    rw [add_mod_of_segment hseg hj, getElem?_splice (by omega), if_pos (by omega),
      List.getElem?_append_right (by omega)]
    exact congrArg (fun k => xs[k]?) (by omega)

/-- **Reading one segment inside the window returns the stream.** -/
theorem read (h : Holds c m s lo hi) {p n : ℕ} (hseg : p % c + n ≤ c) (hlo : lo ≤ p)
    (hhi : p + n ≤ hi) : slice m (p % c) n = slice s p n := by
  refine List.ext_getElem? fun j => ?_
  rw [getElem?_slice, getElem?_slice]
  by_cases hj : j < n
  · rw [if_pos hj, if_pos hj, ← add_mod_of_segment hseg hj]
    exact h (p + j) (by omega) (by omega)
  · rw [if_neg hj, if_neg hj]

end Holds

/-! ## Segments -/

/-- **The segments `segs` lay out the `n` positions from `p` on**, in order and none of them across
the end of the ring. -/
inductive Covers (c : ℕ) : ℕ → List (ℕ × ℕ) → ℕ → Prop
  | nil (p : ℕ) : Covers c p [] 0
  | cons {p len n : ℕ} {segs : List (ℕ × ℕ)} (hseg : p % c + len ≤ c)
      (hrest : Covers c (p + len) segs n) : Covers c p ((p % c, len) :: segs) (len + n)

namespace Covers

variable {p n : ℕ} {segs : List (ℕ × ℕ)}

/-- Ranges one after the other are laid out by their segments one after the other. -/
theorem append {segs' : List (ℕ × ℕ)} {n' : ℕ} (h : Covers c p segs n)
    (h' : Covers c (p + n) segs' n') : Covers c p (segs ++ segs') (n + n') := by
  induction h with
  | nil p => simpa using h'
  | @cons p len n segs hseg _ ih =>
    rw [Nat.add_assoc]
    exact .cons hseg (ih (by rwa [Nat.add_assoc]))

/-- No segment left: nothing left to lay out. -/
theorem eq_zero_of_nil (h : Covers c p [] n) : n = 0 := by
  cases h
  rfl

/-- The first segment of a layout, and the layout of the rest. -/
theorem of_cons {off len : ℕ} (h : Covers c p ((off, len) :: segs) n) :
    off = p % c ∧ p % c + len ≤ c ∧ ∃ k, n = len + k ∧ Covers c (p + len) segs k := by
  cases h with
  | cons hseg hrest => exact ⟨rfl, hseg, _, rfl, hrest⟩

/-- **A range no longer than the ring is laid out by one segment, or by two across the end.** -/
theorem wrap (hc : 0 < c) (hn : n ≤ c) :
    Covers c p (if n ≤ c - p % c then [(p % c, n)]
      else [(p % c, c - p % c), (0, n - (c - p % c))]) n := by
  have hp : p % c < c := Nat.mod_lt _ hc
  by_cases hfit : n ≤ c - p % c
  · rw [if_pos hfit]
    exact .cons (by omega) (.nil _)
  · rw [if_neg hfit]
    have hmod : (p + (c - p % c)) % c = 0 := by
      have := Nat.div_add_mod p c
      rw [show p + (c - p % c) = c * (p / c) + c by omega, Nat.add_mod_right, Nat.mul_mod_right]
    have hrest : Covers c (p + (c - p % c)) [(0, n - (c - p % c))] (n - (c - p % c) + 0) := by
      have hsecond : (p + (c - p % c)) % c + (n - (c - p % c)) ≤ c := by omega
      have := Covers.cons hsecond (.nil _)
      rwa [hmod] at this
    have := Covers.cons (c := c) (p := p) (by omega) hrest
    rwa [show c - p % c + (n - (c - p % c) + 0) = n by omega] at this

end Covers

/-! ## Copying by segments -/

/-- Write `xs` into the ring, one segment after the other. -/
def writeSegments (m : List α) : List (ℕ × ℕ) → List α → List α
  | [], _ => m
  | (off, len) :: segs, xs => writeSegments (splice m off (xs.take len)) segs (xs.drop len)

/-- Read the segments, one after the other. -/
def readSegments (m : List α) : List (ℕ × ℕ) → List α
  | [] => []
  | (off, len) :: segs => slice m off len ++ readSegments m segs

/-- **One write of a laid-out range**: the part it writes, the part it leaves, and what the window
is afterwards. -/
theorem Holds.write_cons {m s xs : List α} {lo hi off len : ℕ} {segs : List (ℕ × ℕ)}
    (h : Holds c m s lo hi) (hs : hi = s.length) (hcov : Covers c hi ((off, len) :: segs) xs.length)
    (hm : c ≤ m.length) (hroom : hi + xs.length ≤ lo + c) :
    Holds c (splice m off (xs.take len)) (s ++ xs.take len) lo (hi + len)
      ∧ (splice m off (xs.take len)).length = m.length
      ∧ (xs.take len).length = len
      ∧ Covers c (hi + len) segs (xs.drop len).length := by
  obtain ⟨rfl, hseg, k, hk, hrest⟩ := hcov.of_cons
  have hlen : (xs.take len).length = len := by rw [List.length_take]; omega
  have hwrite := h.write (xs.take len) hs (by omega) hm (by omega)
  rw [hlen] at hwrite
  refine ⟨hwrite, length_splice (by omega), hlen, ?_⟩
  rwa [List.length_drop, show xs.length - len = k by omega]

/-- **Writing a laid-out range extends the window by it.** -/
theorem Holds.writeSegments {m s xs : List α} {lo hi : ℕ} {segs : List (ℕ × ℕ)}
    (h : Holds c m s lo hi) (hs : hi = s.length) (hcov : Covers c hi segs xs.length)
    (hm : c ≤ m.length) (hroom : hi + xs.length ≤ lo + c) :
    Holds c (writeSegments m segs xs) (s ++ xs) lo (hi + xs.length)
      ∧ (Femtolog.writeSegments m segs xs).length = m.length := by
  induction segs generalizing m s xs hi with
  | nil =>
    obtain rfl : xs = [] := List.eq_nil_of_length_eq_zero hcov.eq_zero_of_nil
    simpa [Femtolog.writeSegments] using h
  | cons seg segs ih =>
    obtain ⟨off, len⟩ := seg
    obtain ⟨hhold, hlen, htake, hrest⟩ := h.write_cons hs hcov hm hroom
    have hsum : len + (xs.drop len).length = xs.length := by
      rw [← htake, ← List.length_append, htake, List.take_append_drop]
    have hnext := ih hhold (by rw [List.length_append, htake, hs]) hrest (by omega) (by omega)
    rw [List.append_assoc, List.take_append_drop, Nat.add_assoc, hsum, hlen] at hnext
    exact hnext

/-- **Reading a laid-out range inside the window returns the stream.** -/
theorem Holds.readSegments {m s : List α} {lo hi p n : ℕ} {segs : List (ℕ × ℕ)}
    (h : Holds c m s lo hi) (hcov : Covers c p segs n) (hlo : lo ≤ p) (hhi : p + n ≤ hi) :
    readSegments m segs = slice s p n := by
  induction hcov with
  | nil p => simp [Femtolog.readSegments]
  | @cons p len n segs hseg hrest ih =>
    rw [Femtolog.readSegments, h.read hseg hlo (by omega), ih (by omega) (by omega),
      slice_append_slice]

/-! ## A copy in progress

Between two of its segments a copy has a part behind it and a part ahead.  A reader's part is what
it has gathered so far (`Reading`); a writer's part is already in the ring, past the end of the
stream as the others know it. -/

/-- **A read of the `n` positions from `p` on, under way**: `out` is what was gathered, `segs` what
is left to visit. -/
structure Reading (c : ℕ) (s : List α) (p n : ℕ) (segs : List (ℕ × ℕ)) (out : List α) : Prop where
  out_eq : out = slice s p out.length
  length_le : out.length ≤ n
  covers : Covers c (p + out.length) segs (n - out.length)

namespace Reading

variable {m s : List α} {p n off len lo hi : ℕ} {segs : List (ℕ × ℕ)} {out : List α}

/-- A read starts with nothing gathered. -/
theorem start (h : Covers c p segs n) : Reading c s p n segs [] where
  out_eq := by simp
  length_le := Nat.zero_le n
  covers := h

/-- **One segment of a read.** -/
theorem step (h : Reading c s p n ((off, len) :: segs) out) (hhold : Holds c m s lo hi)
    (hlo : lo ≤ p + out.length) (hhi : p + n ≤ hi) (hs : p + n ≤ s.length) :
    Reading c s p n segs (out ++ slice m off len) := by
  obtain ⟨rfl, hseg, k, hk, hrest⟩ := h.covers.of_cons
  have hle := h.length_le
  have hread : slice m ((p + out.length) % c) len = slice s (p + out.length) len :=
    hhold.read hseg hlo (by omega)
  have hlen : (slice s (p + out.length) len).length = len := length_slice (by omega)
  have hsum : (out ++ slice s (p + out.length) len).length = out.length + len := by
    rw [List.length_append, hlen]
  rw [hread]
  refine ⟨?_, by omega, ?_⟩
  · rw [hsum, ← slice_append_slice, ← h.out_eq]
  · rw [hsum, show n - (out.length + len) = k by omega, ← Nat.add_assoc]
    exact hrest

/-- **A read with no segment left has read its range.** -/
theorem done (h : Reading c s p n [] out) : out = slice s p n := by
  have h0 := h.covers.eq_zero_of_nil
  have hle := h.length_le
  rw [h.out_eq, show out.length = n by omega]

/-- A read does not notice that the stream grows behind its range. -/
theorem append_right (h : Reading c s p n segs out) (hs : p + n ≤ s.length) (t : List α) :
    Reading c (s ++ t) p n segs out where
  out_eq := by
    have hle := h.length_le
    rw [slice_append_of_le (by omega), ← h.out_eq]
  length_le := h.length_le
  covers := h.covers

end Reading

end Femtolog
