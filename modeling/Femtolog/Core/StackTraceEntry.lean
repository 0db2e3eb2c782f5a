import Femtolog.Core.WriteFormat

/-!
# Core/StackTraceEntry — a line of a stack trace

`to_string` writes an entry field by field to a buffer that may end anywhere.  Each part
adds its text to what the buffer shows (`writes_index` and those after it), so the line is the entry
as it would be written without a bound, cut to the buffer (`exists_toString`).
-/

namespace Femtolog

/-- `kAddressStrLength`. -/
def kAddressStrLength : ℕ := 32

/-- `kFunctionStrLength`. -/
def kFunctionStrLength : ℕ := 256

/-- `kFileStrLength`. -/
def kFileStrLength : ℕ := 512

/-- `StackTraceEntry`. -/
structure StackTraceEntry where
  address : CharArray kAddressStrLength
  function : CharArray kFunctionStrLength
  file : CharArray kFileStrLength
  index : ℕ
  line : ℕ
  offset : ℕ
  useIndex : Bool

namespace StackTraceEntry

/-- The constructor. -/
def new : StackTraceEntry where
  address := .zero kAddressStrLength
  function := .zero kFunctionStrLength
  file := .zero kFileStrLength
  index := 0
  line := 0
  offset := 0
  useIndex := false

/-- `kIndexAlignLength`. -/
def kIndexAlignLength : ℕ := 7

/-- `kAddressAlignLength`. -/
def kAddressAlignLength : ℕ := 20

/-- `kFunctionAlignLength`. -/
def kFunctionAlignLength : ℕ := 30

/-- `kUnknownFunction`. -/
def kUnknownFunction : List Byte := ascii "(unknown function)"

/-! ## Writing -/

section Writing

variable {n : ℕ} (e : StackTraceEntry)

/-- The index, if it is used. -/
def writeIndex (cursor : Cursor Byte n) : Option (Cursor Byte n) :=
  if e.useIndex then do
    let (cursor, indexLen) ← writeFormat cursor (ascii "@" ++ decimal e.index)
    padding cursor indexLen kIndexAlignLength
  else some cursor

/-- The address, if there is one. -/
def writeAddress (cursor : Cursor Byte n) : Option (Cursor Byte n) := do
  let address ← cText e.address.cells
  if address ≠ [] then do
    let (cursor, addrLen) ← writeFormat cursor address
    padding cursor addrLen kAddressAlignLength
  else some cursor

/-- The function, with the offset in it. -/
def writeFunction (cursor : Cursor Byte n) : Option (Cursor Byte n) := do
  let function ← cText e.function.cells
  let func := if function ≠ [] then function else kUnknownFunction
  let (cursor, funcLen) ← writeFormat cursor func
  if 0 < e.offset then do
    let (cursor, offsetLen) ← writeFormat cursor (ascii "+0x" ++ decimal e.offset)
    padding cursor (funcLen + offsetLen) kFunctionAlignLength
  else padding cursor funcLen kFunctionAlignLength

/-- The file, if there is one, with the line in it. -/
def writeFile (cursor : Cursor Byte n) : Option (Cursor Byte n) := do
  let file ← cText e.file.cells
  if file ≠ [] then do
    let (cursor, _) ← writeFormat cursor (ascii " at " ++ file)
    if 0 < e.line then do
      let (cursor, _) ← writeFormat cursor (ascii ":" ++ decimal e.line)
      return cursor
    else some cursor
  else some cursor

/-- The terminator at the end: at the cursor, or at the end of the buffer. -/
def terminate (cursor : Cursor Byte n) : Option (Cursor Byte n) :=
  if cursor.pos < n then cursor.poke cursor.pos 0
  else if 0 < n then cursor.poke (n - 1) 0
  else some cursor

/-- `StackTraceEntry::to_string`; undefined where a write leaves the buffer, or a field that is read
has no terminator. -/
def toString (outBuf : CharArray n) : Option (CharArray n) := do
  let cursor := Cursor.start outBuf.cells outBuf.length_cells
  let cursor ← e.writeIndex cursor
  let cursor ← e.writeAddress cursor
  let cursor ← e.writeFunction cursor
  let cursor ← e.writeFile cursor
  let cursor ← terminate cursor
  return ⟨cursor.cells, cursor.length_cells⟩

end Writing

/-! ## The line without a bound -/

section Rendering

variable (e : StackTraceEntry)

/-- The index as it is written where there is room for it. -/
def indexText : List Byte :=
  if e.useIndex then (ascii "@" ++ decimal e.index).rightpad kIndexAlignLength 0x20 else []

/-- The address. -/
def addressText : List Byte :=
  if e.address.text ≠ [] then e.address.text.rightpad kAddressAlignLength 0x20 else []

/-- The function. -/
def functionText : List Byte :=
  ((if e.function.text ≠ [] then e.function.text else kUnknownFunction)
    ++ (if 0 < e.offset then ascii "+0x" ++ decimal e.offset else [])).rightpad
      kFunctionAlignLength 0x20

/-- The file. -/
def fileText : List Byte :=
  if e.file.text ≠ [] then
    ascii " at " ++ e.file.text ++ (if 0 < e.line then ascii ":" ++ decimal e.line else [])
  else []

/-- **The line of an entry**, without a bound on its length. -/
def rendering : List Byte := e.indexText ++ e.addressText ++ e.functionText ++ e.fileText

/-- The texts of an entry end inside their arrays. -/
structure Terminated : Prop where
  address : e.address.Terminated
  function : e.function.Terminated
  file : e.file.Terminated

theorem terminated_new : new.Terminated where
  address := CharArray.terminated_zero (by decide)
  function := CharArray.terminated_zero (by decide)
  file := CharArray.terminated_zero (by decide)

end Rendering

section Lines

variable {n : ℕ} {e : StackTraceEntry}

/-- A field is a text that `write_format` writes, and `padding` behind it. -/
theorem writes_padded (text : List Byte) (alignLen : ℕ) : Writes (fun cursor : Cursor Byte n => do
    let (cursor, len) ← writeFormat cursor text
    padding cursor len alignLen) (text.rightpad alignLen 0x20) := by
  intro c shown h
  obtain ⟨c₁, len, hwrite, hpos, hshown⟩ := writeFormat_shows h text
  obtain ⟨c₂, hpad, hshown'⟩ := padding_shows h hshown hpos alignLen
  refine ⟨c₂, ?_, hshown'⟩
  dsimp only
  rw [hwrite]
  exact hpad

theorem writes_index (e : StackTraceEntry) : Writes (e.writeIndex (n := n)) e.indexText := by
  intro c shown h
  rw [writeIndex, indexText]
  split_ifs
  · exact writes_padded _ _ c shown h
  · exact Writes.nil c shown h

theorem writes_address (he : e.address.Terminated) :
    Writes (e.writeAddress (n := n)) e.addressText := by
  intro c shown h
  rw [writeAddress, CharArray.cText_eq he, addressText]
  simp only [Option.bind_eq_bind, Option.bind_some]
  split_ifs
  · exact writes_padded _ _ c shown h
  · exact Writes.nil c shown h

theorem writes_function (he : e.function.Terminated) :
    Writes (e.writeFunction (n := n)) e.functionText := by
  intro c shown h
  rw [writeFunction, CharArray.cText_eq he, functionText]
  simp only [Option.bind_eq_bind, Option.bind_some]
  generalize (if e.function.text ≠ [] then e.function.text else kUnknownFunction) = func
  obtain ⟨c₁, funcLen, hwrite, hpos, hshown⟩ := writeFormat_shows h func
  rw [hwrite, Option.bind_some]
  dsimp only
  split_ifs
  · obtain ⟨c₂, offsetLen, hwrite', hpos', hshown'⟩ :=
      writeFormat_shows hshown (ascii "+0x" ++ decimal e.offset)
    rw [hwrite', Option.bind_some]
    rw [List.append_assoc] at hshown'
    exact padding_shows h hshown' (by dsimp only; omega) kFunctionAlignLength
  · rw [List.append_nil]
    exact padding_shows h hshown hpos kFunctionAlignLength

theorem writes_file (he : e.file.Terminated) : Writes (e.writeFile (n := n)) e.fileText := by
  intro c shown h
  rw [writeFile, CharArray.cText_eq he, fileText]
  simp only [Option.bind_eq_bind, Option.bind_some]
  by_cases hfile : e.file.text ≠ []
  · obtain ⟨c₁, fileLen, hwrite, -, hshown⟩ := writeFormat_shows h (ascii " at " ++ e.file.text)
    rw [if_pos hfile, if_pos hfile, hwrite, Option.bind_some]
    dsimp only
    split_ifs
    · obtain ⟨c₂, lineLen, hwrite', -, hshown'⟩ :=
        writeFormat_shows hshown (ascii ":" ++ decimal e.line)
      rw [hwrite']
      exact ⟨c₂, rfl, List.append_assoc shown _ _ ▸ hshown'⟩
    · exact ⟨c₁, rfl, (List.append_nil (ascii " at " ++ e.file.text)).symm ▸ hshown⟩
  · rw [if_neg hfile, if_neg hfile]
    exact Writes.nil c shown h

/-- **The parts one after the other** write the whole line. -/
theorem writes_rendering (h : e.Terminated) : Writes (fun cursor : Cursor Byte n =>
    ((((e.writeIndex cursor).bind e.writeAddress).bind e.writeFunction).bind e.writeFile))
    e.rendering :=
  (((writes_index e).bind (writes_address h.address)).bind (writes_function h.function)).bind
    (writes_file h.file)

theorem nul_notMem_rightpad {text : List Byte} (h : 0 ∉ text) (alignLen : ℕ) :
    0 ∉ text.rightpad alignLen 0x20 := by
  rw [List.rightpad, List.mem_append, not_or]
  exact ⟨h, fun hpad => absurd (List.eq_of_mem_replicate hpad) (by decide)⟩

theorem nul_notMem_decimal (number : ℕ) : 0 ∉ decimal number := fun h =>
  absurd (mem_decimal h).1 (by decide)

theorem nul_notMem_functionText (e : StackTraceEntry) : 0 ∉ e.functionText := by
  refine nul_notMem_rightpad (List.not_mem_append ?_ ?_) _
  · split_ifs
    · exact e.function.nul_notMem_text
    · decide
  · split_ifs
    · exact List.not_mem_append (by decide) (nul_notMem_decimal _)
    · exact List.not_mem_nil

theorem nul_notMem_fileText (e : StackTraceEntry) : 0 ∉ e.fileText := by
  rw [fileText]
  split_ifs
  · refine List.not_mem_append (List.not_mem_append (by decide) e.file.nul_notMem_text) ?_
    exact List.not_mem_append (by decide) (nul_notMem_decimal _)
  · rw [List.append_nil]
    exact List.not_mem_append (by decide) e.file.nul_notMem_text
  · exact List.not_mem_nil

/-- A line holds no terminator of its own. -/
theorem nul_notMem_rendering (e : StackTraceEntry) : 0 ∉ e.rendering := by
  have hindex : 0 ∉ e.indexText := by
    rw [indexText]
    split_ifs
    · exact nul_notMem_rightpad (List.not_mem_append (by decide) (nul_notMem_decimal _)) _
    · exact List.not_mem_nil
  have haddress : 0 ∉ e.addressText := by
    rw [addressText]
    split_ifs
    · exact nul_notMem_rightpad e.address.nul_notMem_text _
    · exact List.not_mem_nil
  exact List.not_mem_append (List.not_mem_append (List.not_mem_append hindex haddress)
    (nul_notMem_functionText e)) (nul_notMem_fileText e)

theorem terminate_eq (c : Cursor Byte n) (hn : 0 < n) :
    terminate c = c.poke (min c.pos (n - 1)) 0 := by
  have := c.pos_le
  rw [terminate]
  split_ifs with hlt
  · rw [Nat.min_eq_left (by omega)]
  · rw [Nat.min_eq_right (by omega)]

/-- **What `to_string` leaves**: the line of the entry, cut to the buffer. -/
theorem exists_toString (h : e.Terminated) (hn : 0 < n) (outBuf : CharArray n) :
    ∃ outBuf', e.toString outBuf = some outBuf'
      ∧ cText outBuf'.cells = some (e.rendering.take (n - 1)) := by
  obtain ⟨c, hparts, hshown⟩ :=
    writes_rendering h _ [] (Shows.start outBuf.cells outBuf.length_cells)
  obtain ⟨c', rest, hpoke, hcells⟩ := hshown.exists_terminate hn 0
  refine ⟨⟨c'.cells, c'.length_cells⟩, ?_, ?_⟩
  · have hgrouped : e.toString outBuf = ((some c).bind terminate).bind fun c =>
        some ⟨c.cells, c.length_cells⟩ := by
      rw [← hparts, toString]
      simp only [Option.bind_eq_bind, Option.bind_assoc]
      rfl
    rw [hgrouped, Option.bind_some, terminate_eq c hn, hpoke]
    rfl
  · change cText c'.cells = _
    rw [hcells, List.nil_append]
    exact cText_append (fun hnul => nul_notMem_rendering e (List.mem_of_mem_take hnul)) rest

end Lines

end StackTraceEntry

end Femtolog
