import Femtolog.Queue.Basic
import Femtolog.Foundations.Encoding

/-!
# Core/StringUtil — escaping

The escaper writes line breaks, carriage returns, tabs and backslashes as two characters, the
decoder reads these pairs back and takes a backslash in front of anything else for itself.  Both
write through a pointer into a buffer sized in advance; neither leaves its buffer, and the decoder
undoes the escaper (`escape_round_trip`).
-/

namespace Femtolog

/-! ## The functions -/

/-- What `encode_escape_impl` writes for one character of its input. -/
def escapeChar (c : Byte) : List Byte :=
  if c = 0x0A then ascii "\\n"
  else if c = 0x0D then ascii "\\r"
  else if c = 0x09 then ascii "\\t"
  else if c = 0x5C then ascii "\\\\"
  else [c]

/-- `encode_escape`. -/
def encodeEscape (input : List Byte) : List Byte := input.flatMap escapeChar

/-- What `decode_escape_impl` writes for a backslash and the character behind it. -/
def unescapeChar (c : Byte) : Option Byte :=
  if c = 0x6E then some 0x0A
  else if c = 0x72 then some 0x0D
  else if c = 0x74 then some 0x09
  else if c = 0x5C then some 0x5C
  else none

/-- `decode_escape`. -/
def decodeEscape : List Byte → List Byte
  | [] => []
  | [c] => [c]
  | c :: d :: rest =>
    if c = 0x5C then
      match unescapeChar d with
      | some x => x :: decodeEscape rest
      | none => c :: decodeEscape (d :: rest)
    else c :: decodeEscape (d :: rest)

/-- The characters that are written as two. -/
def Escaped (c : Byte) : Prop := c = 0x0A ∨ c = 0x0D ∨ c = 0x09 ∨ c = 0x5C

instance (c : Byte) : Decidable (Escaped c) := inferInstanceAs (Decidable (_ ∨ _))

/-! ## The loops -/

variable {n : ℕ}

/-- A buffer of `n` characters, with the pointer the loops write through. -/
def outBuffer (n : ℕ) : Cursor Byte n := .start (List.replicate n 0) List.length_replicate

/-- One turn of the loop of `encode_escape_impl`. -/
def encodeTurn (out : Cursor Byte n) (c : Byte) : Option (Cursor Byte n) :=
  if c = 0x0A then (out.put [0x5C]).bind fun out => out.put [0x6E]
  else if c = 0x0D then (out.put [0x5C]).bind fun out => out.put [0x72]
  else if c = 0x09 then (out.put [0x5C]).bind fun out => out.put [0x74]
  else if c = 0x5C then (out.put [0x5C]).bind fun out => out.put [0x5C]
  else out.put [c]

/-- `encode_escape_impl`, undefined where it leaves its buffer. -/
def encodeEscapeImpl (input : List Byte) : Option (List Byte) :=
  (input.foldlM encodeTurn (outBuffer (input.length * 2))).map fun out => out.cells.take out.pos

/-- The loop of `decode_escape_impl` from the index `i` on. -/
def decodeLoop (input : List Byte) (i : ℕ) (out : Cursor Byte n) : Option (Cursor Byte n) :=
  if i < input.length then
    (input[i]?).bind fun c =>
      if c = 0x5C then
        if i < input.length - 1 then
          (input[i + 1]?).bind fun d =>
            match unescapeChar d with
            | some x => (out.put [x]).bind fun out => decodeLoop input (i + 2) out
            | none => (out.put [c]).bind fun out => decodeLoop input (i + 1) out
        else (out.put [c]).bind fun out => decodeLoop input (i + 1) out
      else (out.put [c]).bind fun out => decodeLoop input (i + 1) out
  else some out
termination_by input.length - i

/-- `decode_escape_impl`, undefined where it leaves its buffer or reads past its input. -/
def decodeEscapeImpl (input : List Byte) : Option (List Byte) :=
  (decodeLoop input 0 (outBuffer input.length)).map fun out => out.cells.take out.pos

/-! ## What the escaper writes -/

/-- No line break, carriage return or tab is left. -/
theorem notMem_encodeEscape {b : Byte} (hb : b = 0x0A ∨ b = 0x0D ∨ b = 0x09)
    (input : List Byte) : b ∉ encodeEscape input := by
  intro hmem
  obtain ⟨c, -, hc⟩ := List.mem_flatMap.mp hmem
  rw [escapeChar] at hc
  split_ifs at hc with hn hr ht hs
  · rcases hb with rfl | rfl | rfl <;> exact absurd hc (by decide)
  · rcases hb with rfl | rfl | rfl <;> exact absurd hc (by decide)
  · rcases hb with rfl | rfl | rfl <;> exact absurd hc (by decide)
  · rcases hb with rfl | rfl | rfl <;> exact absurd hc (by decide)
  · obtain rfl := List.mem_singleton.mp hc
    rcases hb with h | h | h
    · exact hn h
    · exact hr h
    · exact ht h

/-- No newline is left. -/
theorem newline_notMem_encodeEscape (input : List Byte) : (0x0A : Byte) ∉ encodeEscape input :=
  notMem_encodeEscape (.inl rfl) input

theorem length_escapeChar (c : Byte) :
    (escapeChar c).length = if Escaped c then 2 else 1 := by
  rw [escapeChar]
  split_ifs with hn hr ht hs hc <;> simp_all [Escaped] <;> rfl

theorem encodeEscape_cons (c : Byte) (cs : List Byte) :
    encodeEscape (c :: cs) = escapeChar c ++ encodeEscape cs := List.flatMap_cons

theorem length_encodeEscape (input : List Byte) :
    (encodeEscape input).length = input.length + input.countP (Escaped ·) := by
  induction input with
  | nil => rfl
  | cons c cs ih =>
    rw [encodeEscape_cons, List.length_append, length_escapeChar, ih, List.length_cons,
      List.countP_cons]
    by_cases hc : Escaped c
    · simp only [hc, decide_true, if_true]
      omega
    · simp only [hc, decide_false, if_false, Bool.false_eq_true]
      omega

/-- A character becomes two at most. -/
theorem length_encodeEscape_le (input : List Byte) :
    (encodeEscape input).length ≤ input.length * 2 := by
  rw [length_encodeEscape]
  have := input.countP_le_length (p := (Escaped ·))
  omega

/-- **One turn writes what the character becomes.** -/
theorem encodeTurn_eq (out : Cursor Byte n) (c : Byte) :
    encodeTurn out c = out.put (escapeChar c) := by
  rw [encodeTurn, escapeChar]
  split_ifs
  · exact out.put_bind_put [0x5C] [0x6E]
  · exact out.put_bind_put [0x5C] [0x72]
  · exact out.put_bind_put [0x5C] [0x74]
  · exact out.put_bind_put [0x5C] [0x5C]
  · rfl

/-- What is put into an empty buffer is what the pointer has passed. -/
theorem put_outBuffer {xs : List Byte} (h : xs.length ≤ n) :
    ((outBuffer n).put xs).map (fun out => out.cells.take out.pos) = some xs := by
  have hfits : (outBuffer n).pos + xs.length ≤ n := (Nat.zero_add _).trans_le h
  rw [Cursor.put, dif_pos hfits, Option.map_some]
  change some ((splice (List.replicate n 0) 0 xs).take (0 + xs.length)) = some xs
  rw [splice_zero, Nat.zero_add, List.take_left]

/-- **The escaper stays inside its buffer.** -/
theorem encodeEscapeImpl_eq (input : List Byte) :
    encodeEscapeImpl input = some (encodeEscape input) := by
  have hloop : ∀ out : Cursor Byte (input.length * 2),
      input.foldlM encodeTurn out = out.put (encodeEscape input) := by
    generalize input.length * 2 = m
    induction input with
    | nil => exact fun out => out.put_nil.symm
    | cons c cs ih =>
      intro out
      rw [List.foldlM_cons, encodeTurn_eq, encodeEscape_cons, ← Cursor.put_bind_put]
      exact congrArg (out.put (escapeChar c)).bind (funext ih)
  rw [encodeEscapeImpl, hloop, put_outBuffer (length_encodeEscape_le input)]

/-! ## What the decoder writes -/

theorem decodeEscape_cons {c : Byte} (hc : c ≠ 0x5C) (rest : List Byte) :
    decodeEscape (c :: rest) = c :: decodeEscape rest := by
  cases rest with
  | nil => rfl
  | cons d rest => rw [decodeEscape, if_neg hc]

theorem decodeEscape_pair {d x : Byte} (hd : unescapeChar d = some x) (rest : List Byte) :
    decodeEscape (0x5C :: d :: rest) = x :: decodeEscape rest := by
  rw [decodeEscape, if_pos rfl, hd]

/-- **The decoder reads back** what the escaper has written for a character. -/
theorem decodeEscape_escapeChar (c : Byte) (rest : List Byte) :
    decodeEscape (escapeChar c ++ rest) = c :: decodeEscape rest := by
  rw [escapeChar]
  split_ifs with hn hr ht hs
  · exact hn ▸ decodeEscape_pair (d := 0x6E) rfl rest
  · exact hr ▸ decodeEscape_pair (d := 0x72) rfl rest
  · exact ht ▸ decodeEscape_pair (d := 0x74) rfl rest
  · exact hs ▸ decodeEscape_pair (d := 0x5C) rfl rest
  · exact decodeEscape_cons hs rest

theorem decodeEscape_encodeEscape (input : List Byte) :
    decodeEscape (encodeEscape input) = input := by
  induction input with
  | nil => rfl
  | cons c cs ih => rw [encodeEscape_cons, decodeEscape_escapeChar, ih]

/-- A character comes of one at least. -/
theorem length_decodeEscape_le (input : List Byte) :
    (decodeEscape input).length ≤ input.length := by
  fun_induction decodeEscape input with
  | case1 => exact le_rfl
  | case2 c => exact le_rfl
  | case3 d rest x hd ih =>
    simp only [List.length_cons]
    omega
  | case4 d rest hd ih =>
    simp only [List.length_cons] at ih ⊢
    omega
  | case5 c d rest hc ih =>
    simp only [List.length_cons] at ih ⊢
    omega

/-- What an index reads where the rest of the input is known. -/
theorem drop_eq_cons {input : List Byte} {i : ℕ} {c : Byte} {rest : List Byte}
    (h : input.drop i = c :: rest) :
    input[i]? = some c ∧ input.drop (i + 1) = rest ∧ input.length = i + 1 + rest.length := by
  have hlen := congrArg List.length h
  rw [List.length_drop, List.length_cons] at hlen
  refine ⟨?_, ?_, by omega⟩
  · rw [← List.head?_drop, h, List.head?_cons]
  · rw [← List.tail_drop, h, List.tail_cons]

/-- **The loop writes what the rest of the input decodes to**, and reads nothing past its end. -/
theorem decodeLoop_eq (input : List Byte) (i : ℕ) (out : Cursor Byte n) :
    decodeLoop input i out = out.put (decodeEscape (input.drop i)) := by
  induction hrest : input.drop i using decodeEscape.induct generalizing i out with
  | case1 =>
    rw [decodeLoop, if_neg (Nat.not_lt.mpr (List.drop_eq_nil_iff.mp hrest)), decodeEscape,
      Cursor.put_nil]
  | case2 c =>
    obtain ⟨hc, htail, hlen⟩ := drop_eq_cons hrest
    rw [List.length_nil] at hlen
    have hend : ∀ out : Cursor Byte n, decodeLoop input (i + 1) out = some out := fun out => by
      rw [decodeLoop, if_neg (by omega)]
    rw [decodeLoop, if_pos (by omega), hc, Option.bind_some,
      if_neg (by omega : ¬i < input.length - 1), ite_self, decodeEscape]
    simp only [hend]
    exact Option.bind_fun_some _
  | case3 d rest x hd ih =>
    obtain ⟨hc, htail, hlen⟩ := drop_eq_cons hrest
    obtain ⟨hd', htail', -⟩ := drop_eq_cons htail
    rw [List.length_cons] at hlen
    rw [decodeLoop, if_pos (by omega), hc, Option.bind_some, if_pos rfl, if_pos (by omega), hd',
      Option.bind_some, decodeEscape_pair hd]
    simp only [hd, ih _ _ htail']
    exact out.put_bind_put [x] _
  | case4 d rest hd ih =>
    obtain ⟨hc, htail, hlen⟩ := drop_eq_cons hrest
    obtain ⟨hd', -, -⟩ := drop_eq_cons htail
    rw [List.length_cons] at hlen
    rw [decodeLoop, if_pos (by omega), hc, Option.bind_some, if_pos rfl, if_pos (by omega), hd',
      Option.bind_some, decodeEscape, if_pos rfl]
    simp only [hd, ih _ _ htail]
    exact out.put_bind_put [0x5C] _
  | case5 c d rest hc ih =>
    obtain ⟨hc', htail, hlen⟩ := drop_eq_cons hrest
    rw [decodeLoop, if_pos (by omega), hc', Option.bind_some, if_neg hc, decodeEscape_cons hc]
    simp only [ih _ _ htail]
    exact out.put_bind_put [c] _

/-- **The decoder stays inside its buffer**, and reads nothing past the end of its input. -/
theorem decodeEscapeImpl_eq (input : List Byte) :
    decodeEscapeImpl input = some (decodeEscape input) := by
  rw [decodeEscapeImpl, decodeLoop_eq, List.drop_zero, put_outBuffer (length_decodeEscape_le input)]

/-! ## Round trip -/

/-- **Escaping and back**: both functions stay inside their buffers, whatever the input, what the
escaper returns has no line break, carriage return or tab in it, and the decoder gives the input
back. -/
theorem escape_round_trip :
    (∀ s : List Byte, ∃ encoded, encodeEscapeImpl s = some encoded
      ∧ decodeEscapeImpl encoded = some s
      ∧ (0x0A : Byte) ∉ encoded ∧ (0x0D : Byte) ∉ encoded ∧ (0x09 : Byte) ∉ encoded
      ∧ encoded.length ≤ 2 * s.length)
    ∧ ∀ t : List Byte, ∃ decoded, decodeEscapeImpl t = some decoded
      ∧ decoded.length ≤ t.length := by
  refine ⟨fun s => ⟨encodeEscape s, encodeEscapeImpl_eq s, ?_, ?_, ?_, ?_, ?_⟩,
    fun t => ⟨decodeEscape t, decodeEscapeImpl_eq t, length_decodeEscape_le t⟩⟩
  · rw [decodeEscapeImpl_eq, decodeEscape_encodeEscape]
  · exact notMem_encodeEscape (.inl rfl) s
  · exact notMem_encodeEscape (.inr (.inl rfl)) s
  · exact notMem_encodeEscape (.inr (.inr rfl)) s
  · rw [Nat.mul_comm]
    exact length_encodeEscape_le s

end Femtolog
