import Femtolog.Foundations.Bits
import Femtolog.Foundations.Memory
import Femtolog.Queue.Basic

/-!
# Core/Lines — splitting a text into its lines

`read_lines_default` looks for one line break after the other and cuts the line in front of it.
`read_lines_with_avx2` first collects the positions of all line breaks, 32 bytes at a time, and cuts
the lines in a second pass.  Both give the pieces between the line breaks, without an empty one at
the end, each without a carriage return at its end (`read_lines_agree`).
-/

namespace Femtolog

namespace Lines

/-! ## Lines -/

/-- The line of this length from `lineStart` on, without a carriage return at its end. -/
def cutLine (data : List Byte) (lineStart lineLength : ℕ) : List Byte :=
  let lineLength :=
    if 0 < lineLength ∧ data[lineStart + lineLength - 1]? = some 0x0D then lineLength - 1
    else lineLength
  slice data lineStart lineLength

/-- The loop of `read_lines_default` from `currentPos` on. -/
def defaultLoop (data : List Byte) (lines : List (List Byte)) (currentPos : ℕ) :
    List (List Byte) :=
  if currentPos < data.length then
    match (data.drop currentPos).idxOf? 0x0A with
    | some k => defaultLoop data (lines ++ [cutLine data currentPos k]) (currentPos + k + 1)
    | none => lines ++ [cutLine data currentPos (data.length - currentPos)]
  else lines
termination_by data.length - currentPos

/-- `read_lines_default`. -/
def readLinesDefault (content : List Byte) : List (List Byte) :=
  if content = [] then [] else defaultLoop content [] 0

/-- `_mm256_cmpeq_epi8` with a register that holds `c` in every byte. -/
def cmpeqEpi8 (chunk : List Byte) (c : Byte) : List Byte :=
  chunk.map fun b => if b = c then 0xFF else 0x00

/-- `_mm256_movemask_epi8`: the high bits of 32 bytes. -/
def movemaskEpi8 (v : List Byte) : BitVec 32 :=
  (BitVec.ofBoolListLE (v.map fun b => b.toBitVec.msb)).setWidth 32

/-- The loop over the set bits of `mask`. -/
def maskLoop (pos : ℕ) (newlinePositions : List ℕ) (mask : BitVec 32) : List ℕ :=
  if mask = 0#32 then newlinePositions
  else maskLoop pos (newlinePositions ++ [pos + mask.ctz.toNat]) (mask &&& (mask - 1#32))
termination_by mask.toNat
decreasing_by exact clearLowest_lt ‹_›

/-- The loop over the chunks of 32 bytes, with the position it ends at. -/
def chunkLoop (data : List Byte) (newlinePositions : List ℕ) (pos : ℕ) : List ℕ × ℕ :=
  if pos + 32 ≤ data.length then
    let mask := movemaskEpi8 (cmpeqEpi8 (slice data pos 32) 0x0A)
    chunkLoop data (maskLoop pos newlinePositions mask) (pos + 32)
  else (newlinePositions, pos)
termination_by data.length - pos

/-- The loop over the remaining bytes. -/
def scalarLoop (data : List Byte) (newlinePositions : List ℕ) (pos : ℕ) : List ℕ :=
  if pos < data.length then
    scalarLoop data
      (if data[pos]? = some 0x0A then newlinePositions ++ [pos] else newlinePositions) (pos + 1)
  else newlinePositions
termination_by data.length - pos

/-- The pass over the positions of the line breaks, from `lineStart` on, and the last line. -/
def cutLines (data : List Byte) (lines : List (List Byte)) (lineStart : ℕ)
    (newlinePositions : List ℕ) : List (List Byte) :=
  let (lines, lineStart) := newlinePositions.foldl
    (fun (lines, lineStart) newlinePos =>
      (lines ++ [cutLine data lineStart (newlinePos - lineStart)], newlinePos + 1))
    (lines, lineStart)
  if lineStart < data.length then
    lines ++ [cutLine data lineStart (data.length - lineStart)]
  else lines

/-- `read_lines_with_avx2`. -/
def readLinesWithAvx2 (content : List Byte) : List (List Byte) :=
  if content = [] then []
  else
    let (newlinePositions, pos) :=
      if 32 ≤ content.length then chunkLoop content [] 0 else ([], 0)
    cutLines content [] 0 (scalarLoop content newlinePositions pos)

/-! ## The reference -/

/-- A line without a carriage return at its end. -/
def stripCr (line : List Byte) : List Byte :=
  if line.getLast? = some 0x0D then line.dropLast else line

/-- The pieces between the line breaks, without an empty one at the end. -/
def pieces (content : List Byte) : List (List Byte) :=
  let pieces := content.splitOn 0x0A
  if pieces.getLast? = some [] then pieces.dropLast else pieces

/-- The lines of a text. -/
def reference (content : List Byte) : List (List Byte) := (pieces content).map stripCr

variable {data line tail : List Byte} {lines : List (List Byte)} {start : ℕ}

@[simp] theorem reference_nil : reference [] = [] := rfl

/-- A text without line breaks is its only line. -/
theorem reference_last (hne : line ≠ []) (hline : (0x0A : Byte) ∉ line) :
    reference line = [stripCr line] := by
  rw [reference, pieces, List.splitOn_eq_singleton hline]
  simp [hne]

/-- The line in front of a line break, and then those behind it. -/
theorem reference_cons (hline : (0x0A : Byte) ∉ line) (tail : List Byte) :
    reference (line ++ 0x0A :: tail) = stripCr line :: reference tail := by
  have hne := List.splitOn_ne_nil (0x0A : Byte) tail
  rw [reference, reference, pieces, pieces, List.splitOn_append_cons_self_of_not_mem hline]
  simp only [List.getLast?_cons_of_ne_nil hne, List.dropLast_cons_of_ne_nil hne]
  split_ifs <;> rfl

/-- **Lines that are written with a line break each** are the lines of the text, if they hold none
and end with no carriage return. -/
theorem reference_flatten {lines : List (List Byte)}
    (h : ∀ line ∈ lines, (0x0A : Byte) ∉ line ∧ line.getLast? ≠ some 0x0D) :
    reference (lines.map (· ++ [0x0A])).flatten = lines := by
  induction lines with
  | nil => exact reference_nil
  | cons line lines ih =>
    obtain ⟨⟨hline, hcr⟩, hrest⟩ := List.forall_mem_cons.mp h
    rw [List.map_cons, List.flatten_cons, List.append_assoc, List.singleton_append,
      reference_cons hline, ih hrest, stripCr, if_neg hcr]

/-- **A text is read line by line**: what holds of the empty text and of a last line, and goes on
from what is behind a line break to the line in front of it, holds of every text. -/
theorem line_induction {motive : List Byte → Prop} (nil : motive [])
    (last : ∀ line, line ≠ [] → (0x0A : Byte) ∉ line → motive line)
    (cons : ∀ line tail, (0x0A : Byte) ∉ line → motive tail → motive (line ++ 0x0A :: tail))
    (text : List Byte) : motive text := by
  induction hn : text.length using Nat.strong_induction_on generalizing text with
  | _ n ih =>
    by_cases hmem : (0x0A : Byte) ∈ text
    · obtain ⟨line, tail, rfl, hline⟩ := List.eq_append_cons_of_mem hmem
      refine cons line tail hline (ih tail.length ?_ tail rfl)
      rw [← hn, List.length_append, List.length_cons]
      omega
    · rcases eq_or_ne text [] with rfl | hne
      · exact nil
      · exact last text hne hmem

/-! ## Cutting -/

/-- **A line is cut** where it lies in the text. -/
theorem cutLine_eq (h : (data.drop start).take line.length = line) :
    cutLine data start line.length = stripCr line := by
  have hlast : 0 < line.length → data[start + line.length - 1]? = line.getLast? := by
    intro hpos
    rw [List.getLast?_eq_getElem?]
    nth_rewrite 2 [← h]
    rw [List.getElem?_take_of_lt (by omega), List.getElem?_drop, Nat.add_sub_assoc hpos]
  rw [cutLine, stripCr]
  rcases Nat.eq_zero_or_pos line.length with hzero | hpos
  · obtain rfl := List.length_eq_zero_iff.mp hzero
    simp
  · simp only [hpos, true_and, hlast hpos]
    split_ifs with hcr
    · have hshort := congrArg (List.take (line.length - 1)) h
      rw [List.take_take, Nat.min_eq_left (Nat.sub_le _ _), ← List.dropLast_eq_take] at hshort
      exact hshort
    · exact h

theorem idxsOf_last (hline : (0x0A : Byte) ∉ line) (start : ℕ) : line.idxsOf 0x0A start = [] := by
  refine List.idxsOf_eq_nil_iff.mpr fun b hb => ?_
  exact beq_eq_false_iff_ne.mpr fun h => hline (h ▸ hb)

/-- The positions of the line breaks in a text with a line in front. -/
theorem idxsOf_line (hline : (0x0A : Byte) ∉ line) (tail : List Byte) (start : ℕ) :
    (line ++ 0x0A :: tail).idxsOf 0x0A start
      = (start + line.length) :: tail.idxsOf 0x0A (start + line.length + 1) := by
  rw [List.idxsOf_append, idxsOf_last hline, List.nil_append, List.idxsOf_cons]
  rfl

/-- A line in front of a line break, where they lie in the text. -/
theorem drop_line (h : data.drop start = line ++ 0x0A :: tail) :
    start < data.length ∧ data.drop (start + line.length + 1) = tail
      ∧ cutLine data start line.length = stripCr line := by
  have hlen := congrArg List.length h
  rw [List.length_drop, List.length_append, List.length_cons] at hlen
  refine ⟨by omega, ?_, cutLine_eq ?_⟩
  · rw [Nat.add_assoc, ← List.drop_drop, h, ← List.drop_drop, List.drop_left]
    rfl
  · rw [h, List.take_left]

/-- The last line, where it lies in the text. -/
theorem drop_last (hne : line ≠ []) (h : data.drop start = line) :
    start < data.length ∧ data.length - start = line.length
      ∧ cutLine data start line.length = stripCr line := by
  have hpos := List.length_pos_iff.mpr hne
  have hlen := congrArg List.length h
  rw [List.length_drop] at hlen
  exact ⟨by omega, hlen, cutLine_eq (by rw [h, List.take_length])⟩

/-- **The default loop** gives the lines of what is left. -/
theorem defaultLoop_eq (text : List Byte) (h : data.drop start = text) :
    defaultLoop data lines start = lines ++ reference text := by
  induction text using line_induction generalizing start lines with
  | nil =>
    have hend := List.drop_eq_nil_iff.mp h
    rw [defaultLoop, if_neg (Nat.not_lt.mpr hend), reference_nil, List.append_nil]
  | last line hne hline =>
    obtain ⟨hlt, hlen, hcut⟩ := drop_last hne h
    rw [defaultLoop, if_pos hlt, h, List.idxOf?_eq_none_iff.mpr hline, reference_last hne hline,
      ← hcut, hlen]
  | cons line tail hline ih =>
    obtain ⟨hlt, htail, hcut⟩ := drop_line h
    have hfirst : (line ++ 0x0A :: tail).idxOf? 0x0A = some line.length := by
      refine List.idxOf?_eq_some_iff.mpr ⟨by simp, by simp, fun j hj heq => ?_⟩
      rw [List.getElem_append_left hj] at heq
      exact hline (heq ▸ List.getElem_mem hj)
    rw [defaultLoop, if_pos hlt, h, hfirst, reference_cons hline]
    change defaultLoop data (lines ++ [cutLine data start line.length]) _ = _
    rw [ih htail, hcut, List.append_assoc]
    rfl

/-- **The second pass** over the positions of the line breaks gives the lines of what is left. -/
theorem cutLines_eq (text : List Byte) (h : data.drop start = text) :
    cutLines data lines start (text.idxsOf 0x0A start) = lines ++ reference text := by
  induction text using line_induction generalizing start lines with
  | nil =>
    have hend := List.drop_eq_nil_iff.mp h
    rw [reference_nil, List.append_nil]
    exact if_neg (Nat.not_lt.mpr hend)
  | last line hne hline =>
    obtain ⟨hlt, hlen, hcut⟩ := drop_last hne h
    rw [idxsOf_last hline, reference_last hne hline, ← hcut, ← hlen]
    exact if_pos hlt
  | cons line tail hline ih =>
    obtain ⟨hlt, htail, hcut⟩ := drop_line h
    have hrest : cutLines data (lines ++ [stripCr line]) _ _ = _ := ih htail
    rw [idxsOf_line hline, reference_cons hline]
    have hstep : ∀ positions, cutLines data lines start ((start + line.length) :: positions)
        = cutLines data (lines ++ [cutLine data start (start + line.length - start)])
          (start + line.length + 1) positions := fun _ => rfl
    rw [hstep, Nat.add_sub_cancel_left, hcut, hrest, List.append_assoc]
    rfl

/-! ## Collecting the positions -/

/-- The loop over a mask adds the positions of its bits. -/
theorem maskLoop_eq (pos : ℕ) (positions : List ℕ) (mask : BitVec 32) :
    maskLoop pos positions mask = positions ++ (setBits mask).map (pos + ·) := by
  fun_induction maskLoop pos positions mask with
  | case1 positions => rw [setBits_zero, List.map_nil, List.append_nil]
  | case2 positions mask hmask ih =>
    rw [ih, setBits_of_ne_zero hmask, List.map_cons, List.append_assoc]
    rfl

/-- **The mask of a chunk** has its line breaks. -/
theorem setBits_movemask {chunk : List Byte} (hlen : chunk.length = 32) :
    setBits (movemaskEpi8 (cmpeqEpi8 chunk 0x0A)) = chunk.idxsOf 0x0A := by
  have hbits : (cmpeqEpi8 chunk 0x0A).map (fun b => b.toBitVec.msb) = chunk.map (· == 0x0A) := by
    rw [cmpeqEpi8, List.map_map]
    refine List.map_congr_left fun b _ => ?_
    rw [Function.comp_apply]
    split_ifs with hb
    · rw [hb]
      rfl
    · exact (beq_eq_false_iff_ne.mpr hb).symm
  rw [movemaskEpi8, hbits, setBits_ofBoolListLE _ (by rw [List.length_map, hlen]),
    List.findIdxs_map]
  rfl

theorem scalarLoop_eq (positions : List ℕ) (pos : ℕ) :
    scalarLoop data positions pos = positions ++ (data.drop pos).idxsOf 0x0A pos := by
  fun_induction scalarLoop data positions pos with
  | case1 positions pos hlt ih =>
    rw [dite_eq_ite] at ih
    rw [ih, List.drop_eq_getElem_cons hlt, List.idxsOf_cons, List.getElem?_eq_getElem hlt]
    simp only [Option.some.injEq, beq_iff_eq]
    split_ifs
    · rw [List.append_assoc]
      rfl
    · rfl
  | case2 positions pos hend =>
    rw [List.drop_of_length_le (Nat.le_of_not_lt hend)]
    exact (List.append_nil _).symm

/-- **The chunks and the remaining bytes** give the positions of all line breaks. -/
theorem chunkLoop_eq (positions : List ℕ) (pos : ℕ) :
    scalarLoop data (chunkLoop data positions pos).1 (chunkLoop data positions pos).2
      = positions ++ (data.drop pos).idxsOf 0x0A pos := by
  fun_induction chunkLoop data positions pos with
  | case1 positions pos hle mask ih =>
    have hchunk : (slice data pos 32).length = 32 := length_slice hle
    have hsplit : data.drop pos = slice data pos 32 ++ data.drop (pos + 32) := by
      rw [slice, ← List.drop_drop, List.take_append_drop]
    rw [ih, maskLoop_eq, setBits_movemask hchunk, hsplit, List.idxsOf_append, hchunk,
      List.append_assoc, List.idxsOf_start (s := pos)]
    simp only [Nat.add_comm pos]
  | case2 positions pos hend => exact scalarLoop_eq positions pos

/-! ## Both functions -/

/-- The default function gives the lines of its text. -/
theorem readLinesDefault_eq (content : List Byte) :
    readLinesDefault content = reference content := by
  rw [readLinesDefault]
  split_ifs with hempty
  · rw [hempty, reference_nil]
  · exact defaultLoop_eq content rfl

/-- **Both functions give the lines of their text.** -/
theorem read_lines_agree (content : List Byte) :
    readLinesWithAvx2 content = readLinesDefault content
      ∧ readLinesDefault content = reference content := by
  refine ⟨?_, readLinesDefault_eq content⟩
  rw [readLinesDefault_eq, readLinesWithAvx2]
  rcases eq_or_ne content [] with rfl | hne
  · rfl
  · rw [if_neg hne]
    have hcut : cutLines content [] 0 (content.idxsOf 0x0A) = reference content :=
      cutLines_eq content (List.drop_zero (l := content))
    by_cases hlen : 32 ≤ content.length
    · rw [if_pos hlen, ← hcut]
      exact congrArg (cutLines content [] 0) (chunkLoop_eq [] 0)
    · rw [if_neg hlen, ← hcut]
      exact congrArg (cutLines content [] 0) (scalarLoop_eq [] 0)

end Lines

end Femtolog
