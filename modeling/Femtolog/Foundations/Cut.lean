import Mathlib.Order.Bounds.Basic
import Femtolog.Foundations.Encoding

/-!
# Foundations/Cut — texts cut to a buffer

A block of `n` cells has room for a text of `n - 1` and the terminator.  It `Shows` a text if the
text, cut to that, is at its start, and the cursor is behind it or beyond what can be seen.  A
writer that adds a text to what is shown `Writes` it, whatever it does with what does not fit;
writers compose (`Writes.bind`), and a terminator set at the end makes the block hold the text that
is shown, cut (`Shows.exists_terminate`).

Records packed into a block one by one, while there is room, are as many as fit
(`isGreatest_fitting_succ`).
-/

namespace Femtolog

variable {α : Type*} {n : ℕ}

namespace Cursor

/-- Set the cell at a position. -/
def poke (c : Cursor α n) (i : ℕ) (x : α) : Option (Cursor α n) :=
  if h : i < n then
    some ⟨splice c.cells i [x], c.pos,
      (length_splice (c.length_cells.symm ▸ h)).trans c.length_cells, c.pos_le⟩
  else none

theorem exists_poke (c : Cursor α n) {i : ℕ} (h : i < n) (x : α) :
    ∃ c', c.poke i x = some c' ∧ c'.pos = c.pos ∧ c'.cells = splice c.cells i [x] :=
  ⟨_, dif_pos h, rfl, rfl⟩

theorem cells_of_put {c c' : Cursor α n} {xs : List α} (h : c.put xs = some c') :
    c'.cells = splice c.cells c.pos xs := by
  rw [put, dif_pos (le_of_put h)] at h
  rw [← Option.some.inj h]

end Cursor

/-! ## What a block shows -/

/-- **A block shows a text**, as far as it has room for it. -/
def Shows (c : Cursor α n) (text : List α) : Prop :=
  c.cells.take (min c.pos (n - 1)) = text.take (n - 1)

namespace Shows

variable {c c' : Cursor α n} {text xs ys : List α}

theorem start (cells : List α) (h : cells.length = n) : Shows (Cursor.start cells h) [] := by
  rw [Shows, List.take_nil, Cursor.start, Nat.zero_min, List.take_zero]

theorem min_pos (h : Shows c text) : min c.pos (n - 1) = min text.length (n - 1) := by
  have hlen := congrArg List.length h
  rw [List.length_take, List.length_take, c.length_cells] at hlen
  have := c.pos_le
  omega

/-- As long as the cursor can be seen, it is right behind the text. -/
theorem pos_eq (h : Shows c text) (hpos : c.pos < n - 1) : c.pos = text.length := by
  have := h.min_pos
  omega

/-- **What is put need be the text only as far as it can be seen.** -/
theorem put (h : Shows c text) (hput : c.put xs = some c')
    (hxs : c.pos < n - 1 → xs.take (n - 1 - c.pos) = ys.take (n - 1 - c.pos)) :
    Shows c' (text ++ ys) := by
  have hpos := Cursor.pos_of_put hput
  have hcells := Cursor.cells_of_put hput
  have hin : (c.cells.take c.pos).length = c.pos := by
    rw [List.length_take, c.length_cells, Nat.min_eq_left c.pos_le]
  rw [splice, List.append_assoc] at hcells
  rw [Shows] at h
  rcases Nat.lt_or_ge c.pos (n - 1) with hlt | hge
  · have hlen := pos_eq h hlt
    have htext : c.cells.take c.pos = text := by
      rwa [Nat.min_eq_left hlt.le, @List.take_of_length_le _ (n - 1) text (by omega)] at h
    have hsum : c.pos + xs.length = (text ++ xs).length := by rw [List.length_append, hlen]
    rw [Shows, hcells, hpos, htext, ← List.append_assoc, hsum,
      List.take_append_of_le_length (Nat.min_le_left _ _), ← List.take_take,
      List.take_of_length_le (List.length_take_le' _ _), List.take_append, List.take_append,
      ← hlen, hxs hlt]
  · have hmin : min (c.pos + xs.length) (n - 1) = n - 1 := by omega
    have htext : n - 1 ≤ text.length := by
      have := min_pos h
      omega
    rw [Shows, hpos, hmin, hcells, List.take_append_of_le_length (hin.symm ▸ hge), List.take_take,
      Nat.min_eq_left hge, List.take_append_of_le_length htext, ← h, Nat.min_eq_right hge]

/-- **A cell behind the text** is not part of it. -/
theorem poke (h : Shows c text) {i : ℕ} (hi : c.pos ≤ i) (hin : i < n) (hpos : c'.pos = c.pos)
    (x : α) (hcells : c'.cells = splice c.cells i [x]) : Shows c' text := by
  have hlen : min c.pos (n - 1) ≤ (c.cells.take i).length := by
    rw [List.length_take, c.length_cells]
    omega
  rw [Shows, hcells, hpos, splice, List.append_assoc, List.take_append_of_le_length hlen,
    List.take_take, Nat.min_eq_left (by omega)]
  exact h

/-- **A terminator at the end** leaves the text, cut. -/
theorem exists_terminate (h : Shows c text) (hn : 0 < n) (x : α) :
    ∃ c' rest, c.poke (min c.pos (n - 1)) x = some c'
      ∧ c'.cells = text.take (n - 1) ++ x :: rest := by
  obtain ⟨c', hpoke, -, hcells⟩ := c.exists_poke (show min c.pos (n - 1) < n by omega) x
  refine ⟨c', c.cells.drop (min c.pos (n - 1) + 1), hpoke, ?_⟩
  rw [hcells, splice, h, List.append_assoc]
  rfl

end Shows

/-! ## Writers -/

/-- **A writer adds a text** to whatever a block shows. -/
def Writes (write : Cursor α n → Option (Cursor α n)) (text : List α) : Prop :=
  ∀ c shown, Shows c shown → ∃ c', write c = some c' ∧ Shows c' (shown ++ text)

namespace Writes

variable {write write' : Cursor α n → Option (Cursor α n)} {text text' : List α}

theorem nil : Writes (some : Cursor α n → Option (Cursor α n)) [] := fun c shown h =>
  ⟨c, rfl, (List.append_nil shown).symm ▸ h⟩

/-- **Writers compose.** -/
theorem bind (h : Writes write text) (h' : Writes write' text') :
    Writes (fun c => (write c).bind write') (text ++ text') := by
  intro c shown hshown
  obtain ⟨c₁, hwrite, hshown₁⟩ := h c shown hshown
  obtain ⟨c₂, hwrite', hshown₂⟩ := h' c₁ (shown ++ text) hshown₁
  refine ⟨c₂, ?_, List.append_assoc shown text text' ▸ hshown₂⟩
  change (write c).bind write' = some c₂
  rw [hwrite, Option.bind_some, hwrite']

end Writes

/-! ## Packing -/

/-- The first `k` records, a separator behind each. -/
def pack (separator : α) (records : List (List α)) (k : ℕ) : List α :=
  (records.take k).flatMap (· ++ [separator])

/-- The numbers of records that find room in `room` cells, one cell to spare. -/
def fitting (separator : α) (records : List (List α)) (room : ℕ) : Set ℕ :=
  {k | k ≤ records.length ∧ (pack separator records k).length < room}

section Pack

variable {separator : α} {record : List α} {records : List (List α)} {room k : ℕ}

@[simp] theorem pack_zero : pack separator records 0 = [] := rfl

@[simp] theorem pack_succ : pack separator (record :: records) (k + 1)
    = record ++ separator :: pack separator records k := by
  rw [pack, List.take_succ_cons, List.flatMap_cons, List.append_assoc]
  rfl

/-- Without room for the first record there is none for more. -/
theorem isGreatest_fitting_zero (hroom : 0 < room) (h : ∀ record ∈ records.head?,
    room ≤ record.length + 1) : IsGreatest (fitting separator records room) 0 := by
  refine ⟨⟨Nat.zero_le _, hroom⟩, fun k hk => ?_⟩
  cases records with
  | nil => exact hk.1
  | cons record records =>
    cases k with
    | zero => exact le_rfl
    | succ k =>
      have hlen := hk.2
      have hfirst := h record rfl
      rw [pack_succ, List.length_append, List.length_cons] at hlen
      omega

/-- **A record that finds room is one more.** -/
theorem isGreatest_fitting_succ
    (h : IsGreatest (fitting separator records (room - (record.length + 1))) k)
    (hroom : record.length + 1 < room) :
    IsGreatest (fitting separator (record :: records) room) (k + 1) := by
  have hmem : ∀ j, j + 1 ∈ fitting separator (record :: records) room
      ↔ j ∈ fitting separator records (room - (record.length + 1)) := fun j => by
    change _ ≤ _ ∧ _ < _ ↔ _ ≤ _ ∧ _ < _
    rw [pack_succ, List.length_append, List.length_cons, List.length_cons,
      Nat.add_le_add_iff_right]
    refine and_congr_right fun _ => ?_
    omega
  refine ⟨(hmem k).mpr h.1, fun j hj => ?_⟩
  cases j with
  | zero => exact Nat.zero_le _
  | succ j => exact Nat.succ_le_succ (h.2 ((hmem j).mp hj))

end Pack

end Femtolog
