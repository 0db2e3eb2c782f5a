import Femtolog.Core.StackTraceEntry

/-!
# Core/StackTrace — lines packed into a buffer

`stack_trace_entries_to_buffer` writes each entry to a line buffer and copies the line to the output
while there is room for it, a newline and the terminator: the output holds as many whole lines as
fit (`stackTraceEntriesToBuffer_spec`).
-/

namespace Femtolog

variable {m n : ℕ}

/-- The loop of `stack_trace_entries_to_buffer`: what is in the buffer, and `written`. -/
def entriesLoop (lineBuffer : CharArray m) (buffer : CharArray n) (written : ℕ) :
    List StackTraceEntry → Option (CharArray n × ℕ)
  | [] => some (buffer, written)
  | entry :: entries =>
    if written < n - 1 then do
      let lineBuffer ← entry.toString lineBuffer
      let line ← cText lineBuffer.cells
      let lineLen := line.length
      if written + lineLen + 1 < n then do
        let (buffer, rawWritten) ← writeRaw buffer written lineBuffer.cells lineLen
        let written := written + rawWritten
        if written < n - 1 then do
          let buffer ← buffer.write written [0x0A]
          entriesLoop lineBuffer buffer (written + 1) entries
        else entriesLoop lineBuffer buffer written entries
      else some (buffer, written)
    else some (buffer, written)

/-- `stack_trace_entries_to_buffer`, with a line buffer of any size, which is not initialised.
Undefined where a write leaves a buffer. -/
def stackTraceEntriesToBuffer (entries : List StackTraceEntry) (lineBuffer : CharArray m)
    (buffer : CharArray n) : Option (CharArray n) :=
  if n = 0 then some buffer
  else do
    let (buffer, written) ← entriesLoop lineBuffer buffer 0 entries
    buffer.write written [0]

namespace StackTraceEntry

/-- The line of an entry, cut to the line buffer. -/
def lineText (m : ℕ) (e : StackTraceEntry) : List Byte := e.rendering.take (m - 1)

end StackTraceEntry

section Loop

variable {lineBuffer lineBuffer' : CharArray m} {buffer : CharArray n} {front rest line : List Byte}
  {e : StackTraceEntry} {entries : List StackTraceEntry}

/-- **A line that fits** goes behind what has been written, and a newline behind it. -/
theorem exists_entriesLoop_cons (hline : e.toString lineBuffer = some lineBuffer')
    (htext : cText lineBuffer'.cells = some line) (hbuffer : buffer.cells = front ++ rest)
    (hfits : front.length + line.length + 1 < n) : ∃ buffer' : CharArray n,
    entriesLoop lineBuffer buffer front.length (e :: entries)
        = entriesLoop lineBuffer' buffer' (front ++ line ++ [0x0A]).length entries
      ∧ buffer'.cells = (front ++ line ++ [0x0A]) ++ rest.drop (line.length + 1) := by
  obtain ⟨buffer₁, hwrite, hcells₁⟩ := exists_writeRaw hbuffer (take_of_cText htext) (by omega)
  have hroom : (front ++ line).length + [0x0A].length ≤ n := by
    rw [List.length_append, List.length_singleton]
    omega
  obtain ⟨buffer₂, hnewline, hcells₂⟩ :=
    @CharArray.exists_write _ _ _ _ [0x0A] hcells₁ hroom
  refine ⟨buffer₂, ?_, by rw [hcells₂, List.drop_drop]; rfl⟩
  rw [entriesLoop, if_pos (by omega), hline]
  simp only [Option.bind_eq_bind, Option.bind_some, htext]
  rw [if_pos hfits, hwrite, Option.bind_some]
  dsimp only
  rw [if_pos (by omega), ← List.length_append, hnewline, Option.bind_some,
    @List.length_append _ _ [0x0A], List.length_singleton]

/-- At a line that does not fit the loop ends. -/
theorem entriesLoop_of_full (hline : e.toString lineBuffer = some lineBuffer')
    (htext : cText lineBuffer'.cells = some line) (hfull : n ≤ front.length + line.length + 1) :
    entriesLoop lineBuffer buffer front.length (e :: entries) = some (buffer, front.length) := by
  rw [entriesLoop, hline]
  simp only [Option.bind_eq_bind, Option.bind_some, htext]
  rw [if_neg (Nat.not_lt.mpr hfull), ite_self]

/-- **The loop packs `k` lines** behind what has been written, and no more would fit. -/
structure PacksLines (lineBuffer : CharArray m) (buffer : CharArray n) (front rest : List Byte)
    (entries : List StackTraceEntry) (k : ℕ) (buffer' : CharArray n) : Prop where
  greatest : IsGreatest (fitting 0x0A (entries.map (·.lineText m)) (n - front.length)) k
  loop : entriesLoop lineBuffer buffer front.length entries
    = some (buffer', (front ++ pack 0x0A (entries.map (·.lineText m)) k).length)
  cells : buffer'.cells = front ++ pack 0x0A (entries.map (·.lineText m)) k
    ++ rest.drop (pack 0x0A (entries.map (·.lineText m)) k).length

/-- A loop that ends at once packs no line. -/
theorem packsLines_zero (hbuffer : buffer.cells = front ++ rest)
    (hzero : IsGreatest (fitting 0x0A (entries.map (·.lineText m)) (n - front.length)) 0)
    (hloop : entriesLoop lineBuffer buffer front.length entries = some (buffer, front.length)) :
    PacksLines lineBuffer buffer front rest entries 0 buffer where
  greatest := hzero
  loop := by rw [pack_zero, List.append_nil, hloop]
  cells := by
    rw [pack_zero, List.append_nil]
    exact hbuffer

/-- A line that fits is one more. -/
theorem packsLines_succ {k : ℕ} {buffer₁ buffer' : CharArray n}
    (hfits : front.length + (e.lineText m).length + 1 < n)
    (hstep : entriesLoop lineBuffer buffer front.length (e :: entries)
      = entriesLoop lineBuffer' buffer₁ (front ++ e.lineText m ++ [0x0A]).length entries)
    (h : PacksLines lineBuffer' buffer₁ (front ++ e.lineText m ++ [0x0A])
      (rest.drop ((e.lineText m).length + 1)) entries k buffer') :
    PacksLines lineBuffer buffer front rest (e :: entries) (k + 1) buffer' := by
  have hlen : n - (front ++ e.lineText m ++ [0x0A]).length
      = n - front.length - ((e.lineText m).length + 1) := by
    rw [List.length_append, List.length_append, List.length_singleton]
    omega
  have hpack : front ++ pack 0x0A ((e :: entries).map (·.lineText m)) (k + 1)
      = front ++ e.lineText m ++ [0x0A] ++ pack 0x0A (entries.map (·.lineText m)) k := by
    simp
  have hroom : (e.lineText m).length + 1 < n - front.length := by omega
  constructor
  · exact isGreatest_fitting_succ (hlen ▸ h.greatest) hroom
  · rw [hpack, hstep, h.loop]
  · rw [hpack, h.cells, List.drop_drop, List.map_cons, pack_succ, List.length_append,
      List.length_cons, Nat.add_assoc, Nat.add_comm 1]

/-- **The loop packs lines** as long as they fit. -/
theorem exists_packsLines (hm : 0 < m) (hentries : ∀ e ∈ entries, e.Terminated)
    (hbuffer : buffer.cells = front ++ rest) (hroom : front.length < n) :
    ∃ k buffer', PacksLines lineBuffer buffer front rest entries k buffer' := by
  induction entries generalizing lineBuffer buffer front rest with
  | nil =>
    exact ⟨0, buffer,
      packsLines_zero hbuffer (isGreatest_fitting_zero (by omega) (by simp)) (by rw [entriesLoop])⟩
  | cons e entries ih =>
    obtain ⟨lineBuffer', hline, htext⟩ :=
      StackTraceEntry.exists_toString (hentries e List.mem_cons_self) hm lineBuffer
    change _ = some (e.lineText m) at htext
    rcases Nat.lt_or_ge (front.length + (e.lineText m).length + 1) n with hfits | hfull
    · obtain ⟨buffer₁, hstep, hcells₁⟩ :=
        @exists_entriesLoop_cons _ _ _ _ _ _ _ _ _ entries hline htext hbuffer hfits
      have hroom₁ : (front ++ e.lineText m ++ [0x0A]).length < n := by
        rw [List.length_append, List.length_append, List.length_singleton]
        exact hfits
      obtain ⟨k, buffer', h⟩ := @ih lineBuffer' _ _ _
        (fun e he => hentries e (List.mem_cons_of_mem _ he)) hcells₁ hroom₁
      exact ⟨k + 1, buffer', packsLines_succ hfits hstep h⟩
    · refine ⟨0, buffer, packsLines_zero hbuffer (isGreatest_fitting_zero (by omega) ?_)
        (entriesLoop_of_full hline htext hfull)⟩
      rw [List.map_cons, List.head?_cons]
      rintro record ⟨⟩
      omega

end Loop

/-- **The output is packed with lines**, as many as fit, and terminated. -/
theorem exists_stackTraceEntriesToBuffer (hm : 0 < m) (hn : 0 < n) {entries : List StackTraceEntry}
    (hentries : ∀ e ∈ entries, e.Terminated) (lineBuffer : CharArray m) (buffer : CharArray n) :
    ∃ k buffer', IsGreatest (fitting 0x0A (entries.map (·.lineText m)) n) k
      ∧ stackTraceEntriesToBuffer entries lineBuffer buffer = some buffer'
      ∧ buffer'.cells = pack 0x0A (entries.map (·.lineText m)) k ++ [0]
        ++ buffer.cells.drop ((pack 0x0A (entries.map (·.lineText m)) k).length + 1) := by
  obtain ⟨k, buffer₁, hk, hloop, hcells₁⟩ :=
    @exists_packsLines _ _ lineBuffer _ _ _ _ hm hentries (List.nil_append buffer.cells).symm hn
  rw [List.nil_append] at hcells₁
  obtain ⟨buffer₂, hwrite, hcells₂⟩ := @CharArray.exists_write _ _ _ _ [0] hcells₁ hk.1.2
  refine ⟨k, buffer₂, hk, ?_, by rw [hcells₂, List.drop_drop]; rfl⟩
  rw [stackTraceEntriesToBuffer, if_neg hn.ne']
  change (entriesLoop lineBuffer buffer 0 entries).bind _ = _
  have hloop' : entriesLoop lineBuffer buffer 0 entries = some (buffer₁, _) := hloop
  rw [hloop', Option.bind_some]
  exact hwrite

/-- **The output holds as many whole lines as fit**, each the line of its entry cut to the line
buffer. -/
theorem stackTraceEntriesToBuffer_spec (hm : 0 < m) (hn : 0 < n) (entries : List StackTraceEntry)
    (hentries : ∀ e ∈ entries, e.Terminated) (lineBuffer : CharArray m) (buffer : CharArray n) :
    (∀ e ∈ entries, ∀ lineBuffer : CharArray m, ∃ lineBuffer',
      e.toString lineBuffer = some lineBuffer'
        ∧ cText lineBuffer'.cells = some (e.rendering.take (m - 1)))
    ∧ ∃ k buffer', IsGreatest (fitting 0x0A (entries.map (·.lineText m)) n) k
      ∧ stackTraceEntriesToBuffer entries lineBuffer buffer = some buffer'
      ∧ buffer'.cells = pack 0x0A (entries.map (·.lineText m)) k ++ [0]
        ++ buffer.cells.drop ((pack 0x0A (entries.map (·.lineText m)) k).length + 1) :=
  ⟨fun e he lineBuffer => StackTraceEntry.exists_toString (hentries e he) hm lineBuffer,
    exists_stackTraceEntriesToBuffer hm hn hentries lineBuffer buffer⟩

/-- Two entries of which nothing is known, where lines have room for eight characters. -/
theorem stackTraceEntriesToBuffer_new : ∃ k buffer',
    IsGreatest (fitting 0x0A [StackTraceEntry.new.lineText 9, StackTraceEntry.new.lineText 9] 16) k
      ∧ stackTraceEntriesToBuffer [.new, .new] (.zero 9) (.zero 16) = some buffer' := by
  obtain ⟨-, k, buffer', hk, hout, -⟩ := stackTraceEntriesToBuffer_spec (m := 9) (n := 16)
    (by decide) (by decide) [.new, .new]
    (by simp [StackTraceEntry.terminated_new]) (.zero 9) (.zero 16)
  exact ⟨k, buffer', hk, hout⟩

end Femtolog
