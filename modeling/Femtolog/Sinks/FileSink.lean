import Femtolog.Foundations.Outlet
import Femtolog.Sinks.Basic

/-!
# Sinks/FileSink — a file, buffered and direct

A record is a timestamp, the level and the content.  `on_log` copies it piece by piece behind what
is in `buffer_`, after a `flush` if there is no room for it; a record that is longer than the whole
buffer goes to `write_direct`, which lists its four pieces in an array for `writev`.

The stream is complete and in order whatever the lengths (`FileSink.driver`).  The array of
`write_direct` has three cells: it is left by every record that gets there
(`complete_iff`).
-/

namespace Femtolog

/-! ## The timestamp -/

/-- What `std::tm` tells of a time of day; a minute may have a leap second. -/
structure Tm where
  tmHour : Fin 24
  tmMin : Fin 60
  tmSec : Fin 61
  deriving DecidableEq

/-- The `k` low decimal digits of `n`, as a format with this width and zeros in front writes
them. -/
def padded : ℕ → ℕ → List Byte
  | 0, _ => []
  | k + 1, n => padded k (n / 10) ++ [UInt8.ofNat (0x30 + n % 10)]

@[simp] theorem length_padded (k n : ℕ) : (padded k n).length = k := by
  induction k generalizing n with
  | zero => rfl
  | succ k ih => rw [padded, List.length_append, ih, List.length_singleton]

/-- `FileSink`: the descriptor, `buffer_` with `cursor_`, and what has been passed to `write` and
`writev`, call by call. -/
structure FileSink where
  fd : ℤ
  buffer : Scratch Byte
  writes : List (List Byte)

namespace FileSink

/-! ## Constants -/

/-- `kBufferCapacity`. -/
def kBufferCapacity : ℕ := 4096

/-- `kTimestampBufSize`. -/
def kTimestampBufSize : ℕ := 32

/-- `kSep`. -/
def kSep : List Byte := ascii ": "

/-- `kSepLen`. -/
def kSepLen : ℕ := 2

/-- The length of the array in `write_direct`. -/
def kIovLen : ℕ := 3

/-! ## The sink -/

/-- What `"[{:%H:%M:%S}.{:09d}] "` makes of a time; `localtime` is the time of day of a second. -/
def timestampText (localtime : ℕ → Tm) (timeNs : Size) : List Byte :=
  let seconds := timeNs.toNat / 1000000000
  let nanoseconds := timeNs.toNat % 1000000000
  let tm := localtime seconds
  ascii "[" ++ padded 2 tm.tmHour ++ ascii ":" ++ padded 2 tm.tmMin ++ ascii ":"
    ++ padded 2 tm.tmSec ++ ascii "." ++ padded 9 nanoseconds ++ ascii "] "

/-- `format_timestamp`: the buffer it leaves, and the size it returns. -/
def formatTimestamp (localtime : ℕ → Tm) (timeNs : Size) : List Byte × ℕ :=
  let text := timestampText localtime timeNs
  let buf := splice (List.replicate kTimestampBufSize 0) 0 (text.take kTimestampBufSize)
  if kTimestampBufSize - 1 < text.length then (buf, text.length)
  else (splice buf text.length [0x00], text.length)

/-- `FileSink::FileSink`, from the descriptor on. -/
def create (fd : ℤ) : FileSink where
  fd := fd
  buffer := .start (List.replicate kBufferCapacity 0)
  writes := []

/-- `flush`. -/
def flush (s : FileSink) : FileSink :=
  if s.buffer.pos = 0 ∨ s.fd < 0 then s
  else { s with writes := s.writes ++ [s.buffer.filled], buffer := s.buffer.rewind }

/-- The array `iov` of `write_direct`, with `iovcnt`. -/
def directVector (timestamp level content : List Byte) : Scratch (List Byte) :=
  let iov : Scratch (List Byte) := .start (List.replicate kIovLen [])
  let iov := iov.memcpy [timestamp]
  let iov := iov.memcpy [level]
  let iov := iov.memcpy [kSep.take kSepLen]
  iov.memcpy [content]

/-- `write_direct`. -/
def writeDirect (s : FileSink) (timestamp level content : List Byte) : FileSink :=
  if s.fd < 0 then s
  else { s with writes := s.writes ++ [(directVector timestamp level content).filled.flatten] }

/-- `on_log`. -/
def onLog (localtime : ℕ → Tm) (s : FileSink) (entry : LogEntry) (content : List Byte) :
    FileSink :=
  let (timestampBuf, timestampSize) := formatTimestamp localtime entry.timestampNs
  let levelStr := logLevelToLowerStr entry.level
  let lvLen := levelLen entry.level
  let total := timestampSize + lvLen + kSepLen + content.length
  let s := if kBufferCapacity < s.buffer.pos + total then s.flush else s
  if kBufferCapacity < total then
    s.writeDirect (timestampBuf.take timestampSize) (levelStr.take lvLen) content
  else
    let buffer := s.buffer.memcpy (timestampBuf.take timestampSize)
    let buffer := buffer.memcpy (levelStr.take lvLen)
    let buffer := buffer.memcpy (kSep.take kSepLen)
    { s with buffer := buffer.memcpy content }

/-- A sequence of calls of `on_log`. -/
def onLogs (localtime : ℕ → Tm) (s : FileSink) (records : List (LogEntry × List Byte)) : FileSink :=
  records.foldl (fun s r => s.onLog localtime r.1 r.2) s

/-- `~FileSink`. -/
def destroy (s : FileSink) : FileSink := s.flush

/-! ## What a record looks like -/

/-- The text of a record. -/
def recordText (localtime : ℕ → Tm) (entry : LogEntry) (content : List Byte) : List Byte :=
  timestampText localtime entry.timestampNs ++ logLevelToLowerStr entry.level ++ kSep ++ content

variable {localtime : ℕ → Tm} {entry : LogEntry} {content : List Byte}

@[simp] theorem length_timestampText (localtime : ℕ → Tm) (timeNs : Size) :
    (timestampText localtime timeNs).length = 21 := by
  simp only [timestampText, List.length_append, length_padded]
  rfl

/-- **The timestamp fits its buffer**, with the zero behind it. -/
theorem formatTimestamp_eq (localtime : ℕ → Tm) (timeNs : Size) :
    formatTimestamp localtime timeNs
      = (timestampText localtime timeNs ++ List.replicate 11 0, 21) := by
  have hlen := length_timestampText localtime timeNs
  rw [formatTimestamp]
  generalize timestampText localtime timeNs = text at *
  have hbuf : splice (List.replicate kTimestampBufSize 0) 0 (text.take kTimestampBufSize)
      = text ++ List.replicate 11 0 := by
    rw [List.take_of_length_le (by rw [hlen]; decide), splice_zero, hlen]
    rfl
  have hzero : splice (text ++ List.replicate 11 0) 21 [0x00] = text ++ List.replicate 11 0 := by
    rw [splice, List.take_left' hlen, List.append_assoc]
    refine congrArg (text ++ ·) ?_
    rw [List.drop_append, hlen, List.drop_of_length_le (by rw [hlen]; decide)]
    rfl
  simp only [hbuf, hlen, hzero]
  exact if_neg (by decide)

/-- `total`. -/
theorem length_recordText (localtime : ℕ → Tm) (entry : LogEntry) (content : List Byte) :
    (recordText localtime entry content).length
      = 21 + levelLen entry.level + kSepLen + content.length := by
  simp only [recordText, List.length_append, length_timestampText, levelLen]
  rfl

theorem take_kSep : kSep.take kSepLen = kSep := rfl

theorem take_level (level : LogLevel) :
    (logLevelToLowerStr level).take (levelLen level) = logLevelToLowerStr level := List.take_length

/-- The pieces of a record, one after the other. -/
theorem directVector_eq (timestamp level content : List Byte) :
    directVector timestamp level content
      = (Scratch.start (List.replicate kIovLen [])).memcpy [timestamp, level, kSep, content] := by
  simp [directVector, take_kSep]

/-! ## The sink as an outlet -/

/-- The sink, seen as an outlet. -/
def view (s : FileSink) : Outlet Byte := ⟨kBufferCapacity, decide (0 ≤ s.fd), s.buffer, s.writes⟩

/-- A record, seen as an outlet's. -/
def record (localtime : ℕ → Tm) (r : LogEntry × List Byte) : Outlet.Record Byte :=
  let text := recordText localtime r.1 r.2
  ⟨text.length, text⟩

/-- The flush of `on_log`. -/
def makeRoom (localtime : ℕ → Tm) (s : FileSink) (r : LogEntry × List Byte) : FileSink :=
  let total := (formatTimestamp localtime r.1.timestampNs).2 + levelLen r.1.level + kSepLen
    + r.2.length
  if kBufferCapacity < s.buffer.pos + total then s.flush else s

/-- `on_log` from behind its flush on. -/
def take (localtime : ℕ → Tm) (s : FileSink) (r : LogEntry × List Byte) : FileSink :=
  let (timestampBuf, timestampSize) := formatTimestamp localtime r.1.timestampNs
  let levelStr := logLevelToLowerStr r.1.level
  let lvLen := levelLen r.1.level
  let total := timestampSize + lvLen + kSepLen + r.2.length
  if kBufferCapacity < total then
    s.writeDirect (timestampBuf.take timestampSize) (levelStr.take lvLen) r.2
  else
    let buffer := s.buffer.memcpy (timestampBuf.take timestampSize)
    let buffer := buffer.memcpy (levelStr.take lvLen)
    let buffer := buffer.memcpy (kSep.take kSepLen)
    { s with buffer := buffer.memcpy r.2 }

theorem isOpen_view_iff (s : FileSink) : s.view.isOpen = false ↔ s.fd < 0 := by
  simp [view]

theorem view_flush (s : FileSink) : s.flush.view = s.view.flush := by
  rw [flush, apply_ite view, Outlet.flush]
  simp only [isOpen_view_iff]
  rfl

theorem view_makeRoom (localtime : ℕ → Tm) (s : FileSink) (r : LogEntry × List Byte) :
    (s.makeRoom localtime r).view = s.view.makeRoom (record localtime r) := by
  rw [makeRoom, formatTimestamp_eq, apply_ite view, view_flush, Outlet.makeRoom]
  simp only [record, length_recordText]
  rfl

theorem view_take (localtime : ℕ → Tm) (s : FileSink) (r : LogEntry × List Byte) :
    (s.take localtime r).view = s.view.take (record localtime r) := by
  have hts : (timestampText localtime r.1.timestampNs ++ List.replicate 11 0).take 21
      = timestampText localtime r.1.timestampNs := List.take_left' (length_timestampText _ _)
  rw [take, formatTimestamp_eq, Outlet.take]
  dsimp only
  rw [hts, take_level, take_kSep, apply_ite view, writeDirect, apply_ite view]
  simp only [isOpen_view_iff, record, length_recordText, directVector_eq, Scratch.filled_memcpy,
    Scratch.memcpy_memcpy]
  simp [recordText, view, Scratch.start, Scratch.filled]

/-- **The sink works as an outlet does.** -/
def driver (localtime : ℕ → Tm) : Outlet.Driver FileSink (LogEntry × List Byte) Byte where
  flush := flush
  makeRoom := makeRoom localtime
  take := take localtime
  view := view
  record _ := record localtime
  view_flush := view_flush
  view_makeRoom := view_makeRoom localtime
  view_take := view_take localtime

theorem view_onLogs (s : FileSink) (records : List (LogEntry × List Byte)) :
    (s.onLogs localtime records).view = s.view.logs (records.map (record localtime)) :=
  (driver localtime).view_logs (fun _ => rfl) s records

/-- Nothing has been written past the end of `buffer_`, and `cursor_` has not passed it. -/
def Within (s : FileSink) : Prop :=
  s.buffer.cells.length = kBufferCapacity ∧ s.buffer.pos ≤ kBufferCapacity

theorem create_within (fd : ℤ) : (create fd).Within := ⟨List.length_replicate, Nat.zero_le _⟩

/-- The sink stays inside `buffer_` exactly if the file is open, or the records that are no longer
than it fit it all together. -/
theorem within_onLogs_iff (localtime : ℕ → Tm) (fd : ℤ) (records : List (LogEntry × List Byte)) :
    (∀ k, ((create fd).onLogs localtime (records.take k)).Within)
      ↔ 0 ≤ fd ∨ ((records.map fun r => 21 + levelLen r.1.level + kSepLen + r.2.length).filter
          (· ≤ kBufferCapacity)).sum ≤ kBufferCapacity := by
  have hiff := Outlet.within_logs_iff_sum (o := (create fd).view)
    (records.map (record localtime)) (create_within fd) rfl fun r hr => by
      obtain ⟨r, -, rfl⟩ := List.mem_map.mp hr
      rfl
  have hopen : (create fd).view.isOpen = true ↔ 0 ≤ fd := decide_eq_true_iff
  have hsize : (records.map (record localtime)).map Outlet.Record.size
      = records.map fun r => 21 + levelLen r.1.level + kSepLen + r.2.length := by
    rw [List.map_map]
    exact List.map_congr_left fun r _ => length_recordText localtime r.1 r.2
  simp only [← List.map_take, ← view_onLogs, hopen, hsize] at hiff
  exact hiff

/-! ## A complete log -/

/-- **The log of an open file is complete and in bounds**: once the sink is destroyed, the records
have been passed on in order, and no copy has left `buffer_`, `timestamp_buf` or `iov`. -/
structure Complete (localtime : ℕ → Tm) (fd : ℤ) (records : List (LogEntry × List Byte)) :
    Prop where
  stream : ((create fd).onLogs localtime records).destroy.writes.flatten
    = (records.map fun r => recordText localtime r.1 r.2).flatten
  buffer : ∀ k, ((create fd).onLogs localtime (records.take k)).Within
  timestamp : ∀ r ∈ records,
    (formatTimestamp localtime r.1.timestampNs).1.length = kTimestampBufSize
      ∧ (formatTimestamp localtime r.1.timestampNs).2 ≤ kTimestampBufSize
  direct : ∀ r ∈ records, kBufferCapacity < (recordText localtime r.1 r.2).length →
    (directVector (timestampText localtime r.1.timestampNs) (logLevelToLowerStr r.1.level)
      r.2).cells.length = kIovLen

/-- Four pieces do not fit three cells. -/
theorem directVector_past_end (timestamp level content : List Byte) :
    (directVector timestamp level content).cells.length ≠ kIovLen := by
  rw [directVector_eq, Scratch.length_memcpy]
  simp [Scratch.start, kIovLen]

theorem isOpen_create {fd : ℤ} (hfd : 0 ≤ fd) : (create fd).view.isOpen = true :=
  decide_eq_true hfd

/-- **A destroyed sink has passed on all records.** -/
theorem stream_destroy {fd : ℤ} (hfd : 0 ≤ fd) (records : List (LogEntry × List Byte)) :
    ((create fd).onLogs localtime records).destroy.writes.flatten
      = (records.map fun r => recordText localtime r.1 r.2).flatten := by
  have hopen : ((create fd).onLogs localtime records).view.isOpen = true := by
    rw [view_onLogs, Outlet.logs_isOpen, isOpen_create hfd]
  calc ((create fd).onLogs localtime records).destroy.writes.flatten
      = ((create fd).onLogs localtime records).view.flush.writes.flatten := by
        rw [← view_flush]
        rfl
    _ = ((create fd).onLogs localtime records).view.stream := Outlet.writes_flush hopen
    _ = (create fd).view.stream ++ ((records.map (record localtime)).map (·.text)).flatten := by
        rw [view_onLogs, Outlet.stream_logs (isOpen_create hfd)]
    _ = (records.map fun r => recordText localtime r.1 r.2).flatten := by
        rw [List.map_map]
        rfl

theorem within_onLogs {fd : ℤ} (hfd : 0 ≤ fd) (records : List (LogEntry × List Byte)) :
    ((create fd).onLogs localtime records).Within := by
  have hwithin : ((create fd).view.logs (records.map (record localtime))).Within := by
    refine Outlet.within_logs (isOpen_create hfd) (create_within fd) ?_
    intro r hr
    obtain ⟨r, -, rfl⟩ := List.mem_map.mp hr
    exact le_rfl
  rwa [← view_onLogs] at hwithin

/-- **A log is complete and in bounds** exactly if no record is longer than the buffer. -/
theorem complete_iff {fd : ℤ} (hfd : 0 ≤ fd) (localtime : ℕ → Tm)
    (records : List (LogEntry × List Byte)) :
    Complete localtime fd records
      ↔ ∀ r ∈ records, 21 + levelLen r.1.level + kSepLen + r.2.length ≤ kBufferCapacity := by
  simp only [← length_recordText localtime]
  constructor
  · intro hcomplete r hr
    by_contra hlong
    exact directVector_past_end _ _ _ (hcomplete.direct r hr (Nat.lt_of_not_le hlong))
  · intro hshort
    refine ⟨stream_destroy hfd records, fun k => within_onLogs hfd _, ?_, ?_⟩
    · intro r _
      rw [formatTimestamp_eq, List.length_append, length_timestampText, List.length_replicate]
      exact ⟨rfl, Nat.le_of_ble_eq_true rfl⟩
    · exact fun r hr hlong => absurd (hshort r hr) (Nat.not_le_of_lt hlong)

theorem complete_iff_short :
    Complete (fun _ => ⟨12, 30, 0⟩) 3 [(⟨0, 0, 0, 0, .kInfo, []⟩, ascii "up")]
      ↔ ∀ r ∈ [((⟨0, 0, 0, 0, .kInfo, []⟩ : LogEntry), ascii "up")],
        21 + levelLen r.1.level + kSepLen + r.2.length ≤ kBufferCapacity :=
  complete_iff (by decide) _ _

/-- A record of 4096 bytes of content goes to `write_direct`. -/
theorem incomplete_direct : ¬∀ (localtime : ℕ → Tm) (fd : ℤ)
    (records : List (LogEntry × List Byte)), 0 ≤ fd → Complete localtime fd records := by
  intro hall
  have hcomplete := hall (fun _ => ⟨0, 0, 0⟩) 3
    [(⟨0, 0, 0, 0, .kInfo, []⟩, List.replicate 4096 0x61)] (by decide)
  refine directVector_past_end _ _ _ (hcomplete.direct _ List.mem_cons_self ?_)
  rw [length_recordText, List.length_replicate]
  exact Nat.lt_add_of_pos_left (by decide)

end FileSink

end Femtolog
