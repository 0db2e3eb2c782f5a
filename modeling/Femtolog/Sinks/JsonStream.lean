import Femtolog.Foundations.Outlet
import Femtolog.Sinks.JsonLinesSink

/-!
# Sinks/JsonStream — the lines of a sequence of records

`on_log` takes the length of the whole text for the length of what it has in `line`, so a text that
is longer than `line` is passed on with what lies behind it (`lines_whole_iff`).

The buffered sink is an outlet of lines (`JsonLinesSink.driver`), and the other one passes every
line on by itself: the two write the same stream (`buffered_stream_eq`).
-/

namespace Femtolog

namespace JsonLinesSink

/-! ## Sequences of records -/

/-- `JsonLinesSink::JsonLinesSink`, from the descriptor on. -/
def create (enableBuffering : Bool) (fd : ℤ) : JsonLinesSink where
  fd := fd
  buffer := .start (if enableBuffering then List.replicate kBufferCapacity 0 else [])
  writes := []

/-- A sequence of calls of `on_log`. -/
def onLogs (enableBuffering : Bool) (s : JsonLinesSink) (records : List (LogEntry × List Byte)) :
    Option JsonLinesSink :=
  records.foldlM (fun s r => s.onLog enableBuffering r.1 r.2) s

/-- `~JsonLinesSink`. -/
def destroy (enableBuffering : Bool) (s : JsonLinesSink) : JsonLinesSink :=
  if enableBuffering then s.flush else s

/-- Lines one after the other. -/
def emits (enableBuffering : Bool) (s : JsonLinesSink) (lines : List (List Byte)) :
    JsonLinesSink := lines.foldl (emit enableBuffering) s

/-- The lines of a sequence of records. -/
def lineTexts (records : List (LogEntry × List Byte)) : List (List Byte) :=
  records.map fun r => lineText r.1 r.2

/-! ## Lines in their array -/

variable {enableBuffering : Bool} {s : JsonLinesSink} {entry : LogEntry} {content : List Byte}
  {records : List (LogEntry × List Byte)}

/-- A text that can be read from its array fits it. -/
theorem le_of_line {bytes : List Byte} (hline : line entry content = some bytes) :
    (lineText entry content).length ≤ kMaxJsonLineSize := by
  have hend := le_of_window hline
  rw [length_splice (by simp), List.length_replicate] at hend
  omega

/-- **The lines of a sequence of records are whole**: none is longer than `line`, and each call
passes the complete text on. -/
structure LinesWhole (enableBuffering : Bool) (s : JsonLinesSink)
    (records : List (LogEntry × List Byte)) : Prop where
  lineLen : ∀ r ∈ records, (lineText r.1 r.2).length ≤ kMaxJsonLineSize
  emitted : s.onLogs enableBuffering records = some (s.emits enableBuffering (lineTexts records))

theorem onLogs_eq (hfits : ∀ r ∈ records, (lineText r.1 r.2).length ≤ kMaxJsonLineSize) :
    s.onLogs enableBuffering records = some (s.emits enableBuffering (lineTexts records)) := by
  induction records generalizing s with
  | nil => rfl
  | cons r rs ih =>
    have hhead := hfits r List.mem_cons_self
    have hrest := ih (s := s.emit enableBuffering (lineText r.1 r.2)) fun r' hr' =>
      hfits r' (List.mem_cons_of_mem r hr')
    rw [onLogs, List.foldlM_cons, onLog, line_eq hhead]
    exact hrest

theorem le_of_onLogs {s' : JsonLinesSink} (hruns : s.onLogs enableBuffering records = some s') :
    ∀ r ∈ records, (lineText r.1 r.2).length ≤ kMaxJsonLineSize := by
  induction records generalizing s with
  | nil => exact fun r hr => absurd hr List.not_mem_nil
  | cons r rs ih =>
    rw [onLogs, List.foldlM_cons] at hruns
    obtain ⟨next, hnext, hrest⟩ := Option.bind_eq_some_iff.mp hruns
    obtain ⟨bytes, hline, -⟩ := Option.map_eq_some_iff.mp hnext
    exact List.forall_mem_cons.mpr ⟨le_of_line hline, ih hrest⟩

/-- The length of a line. -/
theorem length_lineText (entry : LogEntry) (content : List Byte) :
    (lineText entry content).length
      = (decimal entry.timestampNs.toNat).length + levelLen entry.level
        + (content.length + content.countP (Escaped ·)) + 44 := by
  have hstart : (ascii "\x7b\"timestamp\": ").length = 14 := by decide
  have hlevel : (ascii ", \"level\": \"").length = 12 := by decide
  have hmessage : (ascii "\", \"message\": \"").length = 15 := by decide
  have hend : (ascii "\"\x7d").length = 2 := by decide
  simp only [lineText, lineBody, List.length_append, hstart, hlevel, hmessage, hend,
    length_encodeEscape, List.length_singleton, levelLen]
  omega

/-- **The lines are whole** exactly if no text is longer than `line`: each character that is escaped
counts twice. -/
theorem lines_whole_iff : LinesWhole enableBuffering s records ↔ ∀ r ∈ records,
    (decimal r.1.timestampNs.toNat).length + levelLen r.1.level
      + (r.2.length + r.2.countP (Escaped ·)) + 44 ≤ kMaxJsonLineSize := by
  simp only [← length_lineText]
  exact ⟨fun h => le_of_onLogs h.emitted, fun h => ⟨h, onLogs_eq h⟩⟩

/-- A literal of 999 backslashes, at a time of day with 19 digits. -/
theorem line_past_end : ¬∀ (enableBuffering : Bool) (s : JsonLinesSink)
    (records : List (LogEntry × List Byte)), LinesWhole enableBuffering s records := by
  intro hall
  have hpast : ∀ content : List Byte, content.length = 999 → content.countP (Escaped ·) = 999 →
      ¬LinesWhole true (create true 3)
        [(⟨999, kLiteralLogStringId, 1, 1700000000000000000, .kInfo, []⟩, content)] := by
    intro content hlength hcount hwhole
    have hle := lines_whole_iff.mp hwhole _ List.mem_cons_self
    have hdigits : (decimal 1700000000000000000).length = 19 := by decide
    have hlevel : levelLen .kInfo = 4 := by decide
    rw [hlength, hcount] at hle
    change (decimal 1700000000000000000).length + levelLen .kInfo + (999 + 999) + 44 ≤ 2048 at hle
    omega
  refine hpast (List.replicate 999 0x5C) List.length_replicate ?_ (hall _ _ _)
  rw [List.countP_replicate, if_pos (by decide)]

/-! ## Lines past their array -/

/-- The bytes `on_log` passes on, where `behind` is what lies behind `line`. -/
def lineRead (behind : ℕ → Byte) (entry : LogEntry) (content : List Byte) : List Byte :=
  let text := lineText entry content
  let line := splice (List.replicate kMaxJsonLineSize 0) 0 (text.take kMaxJsonLineSize)
  (line ++ (List.range (text.length - kMaxJsonLineSize)).map behind).take text.length

/-- A sequence of calls of `on_log`, each with what lies behind its `line`. -/
def onLogsPast (s : JsonLinesSink) (reads : List ((LogEntry × List Byte) × (ℕ → Byte))) :
    JsonLinesSink :=
  s.emits true (reads.map fun r => lineRead r.2 r.1.1 r.1.2)

@[simp] theorem length_lineRead (behind : ℕ → Byte) (entry : LogEntry) (content : List Byte) :
    (lineRead behind entry content).length = (lineText entry content).length := by
  rw [lineRead, List.length_take, List.length_append, length_splice (by simp), List.length_map,
    List.length_range, List.length_replicate]
  omega

/-- A line that fits is read without what lies behind it. -/
theorem lineRead_eq (behind : ℕ → Byte)
    (hfits : (lineText entry content).length ≤ kMaxJsonLineSize) :
    lineRead behind entry content = lineText entry content := by
  rw [lineRead, List.take_of_length_le hfits, splice_zero, List.append_assoc]
  exact List.take_left

/-- Where no line is too long, what lies behind them makes no difference. -/
theorem onLogsPast_of_onLogs {s' : JsonLinesSink}
    {reads : List ((LogEntry × List Byte) × (ℕ → Byte))}
    (hruns : s.onLogs true (reads.map Prod.fst) = some s') : s.onLogsPast reads = s' := by
  have hfits := le_of_onLogs hruns
  have hlines : (reads.map fun r => lineRead r.2 r.1.1 r.1.2) = lineTexts (reads.map Prod.fst) := by
    rw [lineTexts, List.map_map]
    exact List.map_congr_left fun r hr => lineRead_eq r.2 (hfits r.1 (List.mem_map_of_mem hr))
  rw [onLogs_eq hfits] at hruns
  rw [onLogsPast, hlines, Option.some.inj hruns]

/-! ## The buffered sink as an outlet -/

/-- The buffered sink, seen as an outlet. -/
def view (s : JsonLinesSink) : Outlet Byte :=
  ⟨kBufferCapacity, decide (0 ≤ s.fd), s.buffer, s.writes⟩

/-- The flush of `on_log`. -/
def makeRoom (s : JsonLinesSink) (line : List Byte) : JsonLinesSink :=
  if kBufferCapacity < s.buffer.pos + line.length then s.flush else s

/-- `on_log` from behind its flush on. -/
def take (s : JsonLinesSink) (line : List Byte) : JsonLinesSink :=
  if kBufferCapacity < line.length then s.writeRaw line
  else { s with buffer := s.buffer.memcpy line }

/-- A line, seen as an outlet's record. -/
def record (line : List Byte) : Outlet.Record Byte := ⟨line.length, line⟩

theorem isOpen_view_iff (s : JsonLinesSink) : s.view.isOpen = false ↔ s.fd < 0 := by
  simp [view]

theorem view_flush (s : JsonLinesSink) : s.flush.view = s.view.flush := by
  rw [flush, apply_ite view, Outlet.flush]
  simp only [isOpen_view_iff]
  rfl

theorem view_makeRoom (s : JsonLinesSink) (line : List Byte) :
    (s.makeRoom line).view = s.view.makeRoom (record line) := by
  rw [makeRoom, apply_ite view, view_flush, Outlet.makeRoom]
  rfl

theorem view_take (s : JsonLinesSink) (line : List Byte) :
    (s.take line).view = s.view.take (record line) := by
  rw [take, apply_ite view, writeRaw, apply_ite view, Outlet.take]
  simp only [isOpen_view_iff]
  rfl

/-- **The buffered sink works as an outlet of lines does.** -/
def driver : Outlet.Driver JsonLinesSink (List Byte) Byte where
  flush := flush
  makeRoom := makeRoom
  take := take
  view := view
  record _ := record
  view_flush := view_flush
  view_makeRoom := view_makeRoom
  view_take := view_take

theorem view_emits (s : JsonLinesSink) (lines : List (List Byte)) :
    (s.emits true lines).view = s.view.logs (lines.map record) :=
  driver.view_logs (fun _ => rfl) s lines

/-- Nothing has been written past the end of `buffer_`, and `cursor_` has not passed it. -/
def Within (s : JsonLinesSink) : Prop :=
  s.buffer.cells.length = kBufferCapacity ∧ s.buffer.pos ≤ kBufferCapacity

theorem create_within (fd : ℤ) : (create true fd).Within := ⟨List.length_replicate, Nat.zero_le _⟩

/-- The sink stays inside `buffer_` exactly if the file is open, or the lines that are no longer
than it fit it all together. -/
theorem within_onLogsPast_iff (fd : ℤ) (reads : List ((LogEntry × List Byte) × (ℕ → Byte))) :
    (∀ k, ((create true fd).onLogsPast (reads.take k)).Within)
      ↔ 0 ≤ fd ∨ ((reads.map fun r => (lineText r.1.1 r.1.2).length).filter
          (· ≤ kBufferCapacity)).sum ≤ kBufferCapacity := by
  have hiff := Outlet.within_logs_iff_sum (o := (create true fd).view)
    ((reads.map fun r => lineRead r.2 r.1.1 r.1.2).map record) (create_within fd) rfl
    fun r hr => by
      obtain ⟨r, -, rfl⟩ := List.mem_map.mp hr
      rfl
  have hopen : (create true fd).view.isOpen = true ↔ 0 ≤ fd := decide_eq_true_iff
  have hsize : ((reads.map fun r => lineRead r.2 r.1.1 r.1.2).map record).map Outlet.Record.size
      = reads.map fun r => (lineText r.1.1 r.1.2).length := by
    rw [List.map_map, List.map_map]
    exact List.map_congr_left fun r _ => length_lineRead r.2 r.1.1 r.1.2
  simp only [← List.map_take, ← view_emits, hopen, hsize] at hiff
  exact hiff

/-! ## The two sinks -/

theorem isOpen_create {fd : ℤ} (hfd : 0 ≤ fd) : (create true fd).view.isOpen = true :=
  decide_eq_true hfd

/-- The buffered sink holds back the end of the lines. -/
theorem stream_emits {fd : ℤ} (hfd : 0 ≤ fd) (lines : List (List Byte)) :
    ((create true fd).emits true lines).writes.flatten
      ++ ((create true fd).emits true lines).buffer.filled = lines.flatten := by
  have hstream := Outlet.stream_logs (isOpen_create hfd) (lines.map record)
  have htext : (lines.map record).map Outlet.Record.text = lines := by
    rw [List.map_map]
    exact List.map_id lines
  rw [← view_emits, htext] at hstream
  exact hstream

theorem writes_destroy {fd : ℤ} (hfd : 0 ≤ fd) (lines : List (List Byte)) :
    (((create true fd).emits true lines).destroy true).writes.flatten = lines.flatten := by
  have hopen : ((create true fd).emits true lines).view.isOpen = true := by
    rw [view_emits, Outlet.logs_isOpen, isOpen_create hfd]
  have hwrites := Outlet.writes_flush hopen
  rw [← view_flush] at hwrites
  exact hwrites.trans (stream_emits hfd lines)

/-- The other one passes every line on by itself. -/
theorem writes_emits {s : JsonLinesSink} (hfd : 0 ≤ s.fd) (lines : List (List Byte)) :
    (s.emits false lines).writes = s.writes ++ lines := by
  induction lines generalizing s with
  | nil => exact (List.append_nil _).symm
  | cons line lines ih =>
    have hwrite : s.emit false line = { s with writes := s.writes ++ [line] } :=
      if_neg (Int.not_lt.mpr hfd)
    have hrest := ih (s := { s with writes := s.writes ++ [line] }) hfd
    rw [emits, List.foldl_cons, hwrite]
    rw [List.append_assoc] at hrest
    exact hrest

/-- **The buffered sink and the other one write the same stream**: of what the one has written, the
other has the end in its buffer, until it is destroyed. -/
theorem buffered_stream_eq {fd : ℤ} (hfd : 0 ≤ fd)
    (hfits : ∀ r ∈ records, (lineText r.1 r.2).length ≤ kMaxJsonLineSize) :
    ∃ buffered plain, (create true fd).onLogs true records = some buffered
      ∧ (create false fd).onLogs false records = some plain
      ∧ buffered.writes.flatten ++ buffered.buffer.filled = plain.writes.flatten
      ∧ (buffered.destroy true).writes.flatten = (plain.destroy false).writes.flatten := by
  have hplain : ((create false fd).emits false (lineTexts records)).writes.flatten
      = (lineTexts records).flatten := by
    rw [writes_emits hfd]
    rfl
  refine ⟨_, _, onLogs_eq hfits, onLogs_eq hfits, ?_, ?_⟩
  · rw [stream_emits hfd, hplain]
  · exact (writes_destroy hfd _).trans hplain.symm

theorem buffered_stream_eq_pair : ∃ buffered plain,
    (create true 3).onLogs true [(⟨3, 0, 1, 1700000000, .kInfo, []⟩, ascii "a"),
        (⟨3, 0, 1, 1700000001, .kWarn, []⟩, ascii "b")] = some buffered
      ∧ (create false 3).onLogs false [(⟨3, 0, 1, 1700000000, .kInfo, []⟩, ascii "a"),
        (⟨3, 0, 1, 1700000001, .kWarn, []⟩, ascii "b")] = some plain
      ∧ buffered.writes.flatten ++ buffered.buffer.filled = plain.writes.flatten
      ∧ (buffered.destroy true).writes.flatten = (plain.destroy false).writes.flatten :=
  buffered_stream_eq (by decide) (by decide)

end JsonLinesSink

end Femtolog
