import Femtolog.Foundations.Cut
import Femtolog.Foundations.Text
import Femtolog.Queue.Basic

/-!
# Core/WriteFormat — writing up to the end of a buffer

`write_format` and `padding` write as much as there is room for: the first leaves a cell for the
terminator, the second goes to the end.  What the buffer shows is the same as if there were room
for everything (`writeFormat_shows`, `padding_shows`).  The cursor is moved on by both, not by
`write_raw`.
-/

namespace Femtolog

variable {n : ℕ}

/-- `write_format`, with the text the arguments are formatted to.  `std::format_to_n` stores as much
of it as it is allowed to. -/
def writeFormat (cursor : Cursor Byte n) (text : List Byte) : Option (Cursor Byte n × ℕ) :=
  let remaining := n - cursor.pos
  if remaining = 0 then some (cursor, 0)
  else do
    let stored := text.take (remaining - 1)
    let cursor ← cursor.put stored
    let cursor ← cursor.poke cursor.pos 0
    return (cursor, stored.length)

/-- `padding`. -/
def padding (cursor : Cursor Byte n) (currentLen alignLen : ℕ) : Option (Cursor Byte n) :=
  let padLen := if currentLen < alignLen then alignLen - currentLen else 0
  let toPad := min padLen (n - cursor.pos)
  cursor.put (List.replicate toPad 0x20)

/-- `write_raw`, which copies to where a cursor stands and returns how much; undefined past the end
of what it copies from. -/
def writeRaw (dest : CharArray n) (cursor : ℕ) (source : List Byte) (len : ℕ) :
    Option (CharArray n × ℕ) :=
  if len = 0 then some (dest, 0)
  else if len ≤ source.length then (dest.write cursor (source.take len)).map (·, len)
  else none

/-- A number in hexadecimal digits, as `std::to_chars` writes it. -/
def hexadecimal (addr : UInt64) : List Byte :=
  (Nat.toDigits 16 addr.toNat).map fun c => UInt8.ofNat c.toNat

/-- `format_address_safe`. -/
def formatAddressSafe (addr : UInt64) (buffer : CharArray n) : Option (CharArray n) :=
  if n < 2 * 8 + 3 then
    if 0 < n then buffer.write 0 [0] else some buffer
  else if 2 + (hexadecimal addr).length ≤ n then
    buffer.write 0 (ascii "0x" ++ hexadecimal addr ++ [0])
  else buffer.write 0 (0 :: ascii "x")

variable {cursor : Cursor Byte n} {shown text : List Byte}

/-- **`write_format` writes its text**, and returns how far it has moved the cursor. -/
theorem writeFormat_shows (h : Shows cursor shown) (text : List Byte) :
    ∃ cursor' written, writeFormat cursor text = some (cursor', written)
      ∧ cursor'.pos = cursor.pos + written ∧ Shows cursor' (shown ++ text) := by
  have hle := cursor.pos_le
  rw [writeFormat]
  by_cases hroom : n - cursor.pos = 0
  · refine ⟨cursor, 0, if_pos hroom, rfl, ?_⟩
    exact h.put (cursor.put_nil) fun hlt => by omega
  · have hstored : (text.take (n - cursor.pos - 1)).length ≤ n - cursor.pos - 1 :=
      List.length_take_le _ _
    obtain ⟨c, hput⟩ := cursor.exists_put (text.take (n - cursor.pos - 1)) (by omega)
    have hpos := Cursor.pos_of_put hput
    have hlt : c.pos < n := by omega
    obtain ⟨c', hpoke, hpos', hcells⟩ := c.exists_poke hlt 0
    have hshown : Shows c (shown ++ text) := h.put hput fun _ => by
      rw [List.take_take, Nat.min_eq_left (by omega)]
    refine ⟨c', _, ?_, hpos'.trans hpos, hshown.poke le_rfl hlt hpos' 0 hcells⟩
    dsimp only
    rw [if_neg hroom, hput]
    change (c.poke c.pos 0).bind _ = _
    rw [hpoke]
    rfl

/-- **`padding` writes spaces** up to the alignment of the field it is behind. -/
theorem padding_shows {start : Cursor Byte n} {currentLen : ℕ} (hstart : Shows start shown)
    (h : Shows cursor (shown ++ text)) (hpos : cursor.pos = start.pos + currentLen)
    (alignLen : ℕ) : ∃ cursor', padding cursor currentLen alignLen = some cursor'
      ∧ Shows cursor' (shown ++ text.rightpad alignLen 0x20) := by
  have hle := cursor.pos_le
  rw [padding]
  obtain ⟨c, hput⟩ := cursor.exists_put (List.replicate (min
    (if currentLen < alignLen then alignLen - currentLen else 0) (n - cursor.pos)) 0x20)
    (by rw [List.length_replicate]; omega)
  refine ⟨c, hput, ?_⟩
  rw [List.rightpad, ← List.append_assoc]
  refine h.put hput fun hlt => ?_
  have hlen := h.pos_eq hlt
  have hlen' := hstart.pos_eq (by omega)
  rw [List.length_append] at hlen
  rw [List.take_replicate, List.take_replicate]
  refine congrArg (List.replicate · 0x20) ?_
  split_ifs <;> omega

/-- **A copy behind what has been filled in**, of no more than there is to copy. -/
theorem exists_writeRaw {dest : CharArray n} {front rest source : List Byte}
    (hdest : dest.cells = front ++ rest) (hsource : source.take text.length = text)
    (h : front.length + text.length ≤ n) :
    ∃ dest', writeRaw dest front.length source text.length = some (dest', text.length)
      ∧ dest'.cells = (front ++ text) ++ rest.drop text.length := by
  have hlen := congrArg List.length hsource
  rw [List.length_take] at hlen
  rw [writeRaw, hsource, if_pos (by omega : text.length ≤ source.length)]
  split_ifs with hempty
  · obtain rfl := List.length_eq_zero_iff.mp hempty
    exact ⟨dest, rfl, by rw [List.append_nil, hdest]; rfl⟩
  · obtain ⟨dest', hwrite, hcells⟩ := CharArray.exists_write hdest h
    exact ⟨dest', by rw [hwrite]; rfl, hcells⟩

/-- A copy that is defined stays inside the arrays. -/
theorem bounds_of_writeRaw {dest : CharArray n} {pos len : ℕ} {source : List Byte}
    {r : CharArray n × ℕ} (h : writeRaw dest pos source len = some r) (hlen : len ≠ 0) :
    len ≤ source.length ∧ pos + len ≤ n := by
  rw [writeRaw, if_neg hlen] at h
  split_ifs at h with hsource
  obtain ⟨dest', hwrite, -⟩ := Option.map_eq_some_iff.mp h
  have hle := CharArray.le_of_write hwrite
  rw [List.length_take, Nat.min_eq_left hsource] at hle
  exact ⟨hsource, hle⟩

theorem exists_writeRaw_start (dest : CharArray n) {source : List Byte}
    (hsource : source.take text.length = text) (h : text.length ≤ n) :
    ∃ dest', writeRaw dest 0 source text.length = some (dest', text.length)
      ∧ dest'.cells = text ++ dest.cells.drop text.length :=
  @exists_writeRaw n text dest [] _ source (List.nil_append _).symm hsource
    (by rwa [List.length_nil, Nat.zero_add])

/-- A copy of the length of its array fills it. -/
theorem exists_writeRaw_full (dest : CharArray n) {source : List Byte} (h : n ≤ source.length) :
    ∃ dest', writeRaw dest 0 source n = some (dest', n) ∧ dest'.cells = source.take n := by
  have hlen : (source.take n).length = n := by rw [List.length_take, Nat.min_eq_left h]
  obtain ⟨dest', hwrite, hcells⟩ :=
    exists_writeRaw_start dest (by rw [hlen] : source.take (source.take n).length = _) hlen.le
  rw [hlen] at hwrite hcells
  refine ⟨dest', hwrite, ?_⟩
  rw [hcells, List.drop_of_length_le dest.length_cells.le, List.append_nil]

/-- A text copied to the start of an array of zeros has zeros behind it. -/
theorem exists_writeRaw_zero {source : List Byte} (hsource : cText source = some text)
    (h : text.length ≤ n) :
    ∃ dest, writeRaw (.zero n) 0 source text.length = some (dest, text.length)
      ∧ dest.cells = text ++ List.replicate (n - text.length) 0 := by
  obtain ⟨dest, hwrite, hcells⟩ := exists_writeRaw_start (.zero n) (take_of_cText hsource) h
  exact ⟨dest, hwrite, hcells.trans (by rw [CharArray.zero, List.drop_replicate])⟩

/-- **A text copied to the start of an array of zeros** is terminated if and only if a zero is left
behind it; one that is longer than the array does not get there. -/
theorem exists_writeRaw_zero_iff {source : List Byte} (hsource : cText source = some text) :
    (∃ r, writeRaw (.zero n) 0 source text.length = some r ∧ r.1.Terminated)
      ↔ text.length < n := by
  constructor
  · rintro ⟨r, hwrite, hdest⟩
    by_contra hge
    have hle : text.length ≤ n := by
      rcases Nat.eq_zero_or_pos text.length with hzero | hpos
      · omega
      · have := (bounds_of_writeRaw hwrite hpos.ne').2
        omega
    obtain ⟨dest, hwrite', hcells⟩ := exists_writeRaw_zero hsource hle
    obtain rfl := Option.some.inj (hwrite.symm.trans hwrite')
    rw [CharArray.Terminated, hcells, Nat.sub_eq_zero_of_le (Nat.not_lt.mp hge),
      List.replicate_zero, List.append_nil] at hdest
    exact nul_notMem_of_cText hsource hdest
  · intro hlt
    obtain ⟨dest, hwrite, hcells⟩ := exists_writeRaw_zero hsource hlt.le
    refine ⟨_, hwrite, ?_⟩
    rw [CharArray.Terminated, hcells]
    exact List.mem_append_right _ (List.mem_replicate.mpr ⟨by omega, rfl⟩)

theorem length_hexadecimal_le (addr : UInt64) : (hexadecimal addr).length ≤ 16 := by
  rw [hexadecimal, List.length_map]
  exact (Nat.length_toDigits_le_iff (by decide) (by decide)).mpr addr.toNat_lt

/-- An address has room in a buffer of the size it is given. -/
theorem exists_formatAddressSafe (addr : UInt64) (buffer : CharArray n) (hn : 2 * 8 + 3 ≤ n) :
    ∃ buffer', formatAddressSafe addr buffer = some buffer' ∧ buffer'.Terminated := by
  have hdigits := length_hexadecimal_le addr
  have hlen : (ascii "0x" ++ hexadecimal addr ++ [0]).length
      = 2 + (hexadecimal addr).length + 1 := by
    rw [List.length_append, List.length_append]
    rfl
  obtain ⟨buffer', hwrite, hcells⟩ :=
    @CharArray.exists_write_start n buffer (ascii "0x" ++ hexadecimal addr ++ [0]) (by omega)
  refine ⟨buffer', ?_, ?_⟩
  · rw [formatAddressSafe, if_neg (by omega), if_pos (by omega), hwrite]
  · rw [CharArray.Terminated, hcells]
    simp

end Femtolog
