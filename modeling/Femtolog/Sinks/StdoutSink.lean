import Femtolog.Foundations.Outlet
import Femtolog.Sinks.Basic

/-!
# Sinks/StdoutSink — the standard output, buffered and direct

A record is a prefix with the level and the content.  The buffered sink decides with
`estimate_length` whether a record still fits `buffer_` and then writes it there with
`build_message`; the direct path builds the record in an array on the stack.  Neither copy looks at
the end of its array.

The estimate counts four bytes for the colour of a level, and the colours have five: a coloured
record may end one byte past the buffer (`buffered_within_iff`, `buffered_inside_iff`).  The array
of the direct path is as long as the buffer, whatever the record (`direct_complete_iff`).
-/

namespace Femtolog

/-- `ColorMode`. -/
inductive ColorMode
  | kAuto
  | kAlways
  | kNever
  deriving DecidableEq

/-- `StdoutSink`: `buffer_` with `cursor_`, and what has been passed to `write`, call by call. -/
structure StdoutSink where
  mode : ColorMode
  buffer : Scratch Byte
  writes : List (List Byte)

namespace StdoutSink

/-! ## Constants -/

/-- `kBufferCapacity`. -/
def kBufferCapacity : ℕ := 4096

/-- `kSep`. -/
def kSep : List Byte := ascii ": "

/-- `kSepLen`. -/
def kSepLen : ℕ := 2

/-- `kAnsiStyleLen`. -/
def kAnsiStyleLen : ℕ := 4

/-- `kResetLen`. -/
def kResetLen : ℕ := 4

/-! ## The sink -/

/-- `StdoutSink::StdoutSink`. -/
def create (mode : ColorMode) : StdoutSink where
  mode := mode
  buffer := .start (List.replicate kBufferCapacity 0)
  writes := []

/-- `is_color_enabled`; `ansi` is what `is_ansi_sequence_available` has found out once. -/
def isColorEnabled (ansi : Bool) (mode : ColorMode) : Bool :=
  (mode = .kAuto && ansi) || mode = .kAlways

/-- `estimate_length`. -/
def estimateLength (colored : Bool) (level : LogLevel) (contentLen : ℕ) : ℕ :=
  let len := contentLen + kSepLen
  let len := if colored then len + (kAnsiStyleLen + kResetLen + kAnsiStyleLen) else len
  len + levelLen level

/-- `build_message`, from `out` on. -/
def buildMessage (colored : Bool) (out : Scratch Byte) (level : LogLevel) (content : List Byte) :
    Scratch Byte :=
  let p :=
    if level ≠ .kRaw then
      let p :=
        if colored then
          let p := out.memcpy (kBold.take kAnsiStyleLen)
          p.memcpy ((logLevelToAnsiColor level).take (levelAnsiLen level))
        else out
      let p := p.memcpy ((logLevelToLowerStr level).take (levelLen level))
      let p := if colored then p.memcpy (kReset.take kResetLen) else p
      p.memcpy (kSep.take kSepLen)
    else out
  p.memcpy content

/-- `flush`. -/
def flush (s : StdoutSink) : StdoutSink :=
  if s.buffer.pos = 0 then s
  else { s with writes := s.writes ++ [s.buffer.filled], buffer := s.buffer.rewind }

/-- The array of `write_direct` after `build_message`. -/
def directBuffer (colored : Bool) (level : LogLevel) (content : List Byte) : Scratch Byte :=
  buildMessage colored (.start (List.replicate kBufferCapacity 0)) level content

/-- `write_direct`. -/
def writeDirect (ansi : Bool) (s : StdoutSink) (level : LogLevel) (content : List Byte) :
    StdoutSink :=
  let tmp := directBuffer (isColorEnabled ansi s.mode) level content
  { s with writes := s.writes ++ [tmp.filled] }

/-- `on_log`. -/
def onLog (enableBuffering ansi : Bool) (s : StdoutSink) (level : LogLevel) (content : List Byte) :
    StdoutSink :=
  if ¬enableBuffering then s.writeDirect ansi level content
  else
    let colored := isColorEnabled ansi s.mode
    let totalLen := estimateLength colored level content.length
    let s := if kBufferCapacity < s.buffer.pos + totalLen then s.flush else s
    if kBufferCapacity < totalLen then s.writeDirect ansi level content
    else { s with buffer := buildMessage colored s.buffer level content }

/-- A sequence of calls of `on_log`. -/
def onLogs (enableBuffering ansi : Bool) (s : StdoutSink) (records : List (LogLevel × List Byte)) :
    StdoutSink :=
  records.foldl (fun s r => s.onLog enableBuffering ansi r.1 r.2) s

/-! ## What a record looks like -/

/-- What stands before the content of a record. -/
def linePrefix (colored : Bool) (level : LogLevel) : List Byte :=
  if level = .kRaw then []
  else (if colored then kBold ++ logLevelToAnsiColor level else [])
    ++ logLevelToLowerStr level ++ (if colored then kReset else []) ++ kSep

/-- The levels that the sink writes in a colour. -/
def HasColor (level : LogLevel) : Prop := level ≠ .kRaw ∧ level ≠ .kUnknown

instance (level : LogLevel) : Decidable (HasColor level) :=
  inferInstanceAs (Decidable (_ ∧ _))

variable {colored ansi : Bool} {level : LogLevel} {content : List Byte} {s : StdoutSink}

/-- **`build_message` appends the prefix and the content.** -/
theorem buildMessage_eq (colored : Bool) (out : Scratch Byte) (level : LogLevel)
    (content : List Byte) :
    buildMessage colored out level content = out.memcpy (linePrefix colored level ++ content) := by
  have hcolor : (logLevelToAnsiColor level).take (levelAnsiLen level) = logLevelToAnsiColor level :=
    List.take_length
  have hlevel : (logLevelToLowerStr level).take (levelLen level) = logLevelToLowerStr level :=
    List.take_length
  have hbold : kBold.take kAnsiStyleLen = kBold := rfl
  have hreset : kReset.take kResetLen = kReset := rfl
  have hsep : kSep.take kSepLen = kSep := rfl
  rw [buildMessage, linePrefix, hcolor, hlevel, hbold, hreset, hsep]
  by_cases hraw : level = .kRaw
  · simp [hraw]
  · cases colored <;> simp [hraw]

theorem estimateLength_add (colored : Bool) (level : LogLevel) (n : ℕ) :
    estimateLength colored level n = estimateLength colored level 0 + n := by
  cases colored <;> simp [estimateLength] <;> omega

/-- **The estimate of a coloured record** misses one byte. -/
theorem length_linePrefix_of_color (hcolor : colored = true ∧ HasColor level) (n : ℕ) :
    (linePrefix colored level).length + n = estimateLength colored level n + 1 := by
  obtain ⟨rfl, hlevel⟩ := hcolor
  have htable : ∀ level, HasColor level →
      (linePrefix true level).length = estimateLength true level 0 + 1 := by
    intro level
    cases level <;> decide
  rw [estimateLength_add, htable level hlevel]
  omega

/-- The estimate of any other record covers it. -/
theorem length_linePrefix_le (hplain : ¬(colored = true ∧ HasColor level)) (n : ℕ) :
    (linePrefix colored level).length + n ≤ estimateLength colored level n := by
  have htable : ∀ colored level, ¬(colored = true ∧ HasColor level) →
      (linePrefix colored level).length ≤ estimateLength colored level 0 := by
    intro colored level
    cases colored <;> cases level <;> decide
  rw [estimateLength_add]
  exact Nat.add_le_add_right (htable colored level hplain) n

/-! ## The buffered sink -/

/-- Nothing has been written past the end of `buffer_`, and `cursor_` has not passed it. -/
def Within (s : StdoutSink) : Prop :=
  s.buffer.cells.length = kBufferCapacity ∧ s.buffer.pos ≤ kBufferCapacity

/-- Where a record of this estimated length begins. -/
def recordStart (s : StdoutSink) (totalLen : ℕ) : ℕ :=
  if kBufferCapacity < s.buffer.pos + totalLen then 0 else s.buffer.pos

/-- A coloured record that the estimate takes to end with the buffer. -/
def EndsAtBoundary (ansi : Bool) (s : StdoutSink) (level : LogLevel) (content : List Byte) : Prop :=
  let colored := isColorEnabled ansi s.mode
  let totalLen := estimateLength colored level content.length
  colored = true ∧ HasColor level ∧ s.recordStart totalLen + totalLen = kBufferCapacity

@[simp] theorem flush_mode (s : StdoutSink) : s.flush.mode = s.mode := by
  rw [flush]
  split_ifs <;> rfl

theorem flush_buffer (s : StdoutSink) : s.flush.buffer = s.buffer.rewind := by
  rw [flush]
  split_ifs with hpos
  · exact Scratch.ext rfl hpos
  · rfl

@[simp] theorem onLog_mode (enableBuffering : Bool) (s : StdoutSink) :
    (s.onLog enableBuffering ansi level content).mode = s.mode := by
  simp only [onLog]
  split_ifs <;> first | rfl | exact flush_mode s

@[simp] theorem onLogs_mode (enableBuffering : Bool) (s : StdoutSink)
    (records : List (LogLevel × List Byte)) :
    (s.onLogs enableBuffering ansi records).mode = s.mode := by
  induction records generalizing s with
  | nil => rfl
  | cons r rs ih =>
    change ((s.onLog enableBuffering ansi r.1 r.2).onLogs enableBuffering ansi rs).mode = s.mode
    rw [ih, onLog_mode]

theorem onLogs_append (enableBuffering : Bool) (s : StdoutSink)
    (rs rs' : List (LogLevel × List Byte)) :
    s.onLogs enableBuffering ansi (rs ++ rs')
      = (s.onLogs enableBuffering ansi rs).onLogs enableBuffering ansi rs' :=
  List.foldl_append

/-- The buffer a record is written to. -/
theorem onLog_buffer (hest : estimateLength (isColorEnabled ansi s.mode) level content.length
    ≤ kBufferCapacity) :
    ∃ out : Scratch Byte, out.cells = s.buffer.cells
      ∧ out.pos = s.recordStart (estimateLength (isColorEnabled ansi s.mode) level content.length)
      ∧ (s.onLog true ansi level content).buffer
          = out.memcpy (linePrefix (isColorEnabled ansi s.mode) level ++ content) := by
  have hfits : ¬kBufferCapacity
      < estimateLength (isColorEnabled ansi s.mode) level content.length := by omega
  simp only [onLog, if_neg hfits, recordStart, buildMessage_eq, not_true_eq_false, if_false]
  split_ifs with hfull
  · exact ⟨s.buffer.rewind, rfl, rfl, by rw [flush_buffer]⟩
  · exact ⟨s.buffer, rfl, rfl, rfl⟩

/-- **A record stays inside the buffer** if and only if it does not end past it. -/
theorem within_onLog (hs : s.Within)
    (hest : estimateLength (isColorEnabled ansi s.mode) level content.length ≤ kBufferCapacity) :
    (s.onLog true ansi level content).Within ↔ ¬s.EndsAtBoundary ansi level content := by
  obtain ⟨out, hcells, hpos, hbuffer⟩ := onLog_buffer hest
  have hstart : out.pos + estimateLength (isColorEnabled ansi s.mode) level content.length
      ≤ kBufferCapacity := by
    rw [hpos, recordStart]
    split_ifs <;> omega
  have hwithin : (s.onLog true ansi level content).Within
      ↔ out.pos + ((linePrefix (isColorEnabled ansi s.mode) level).length + content.length)
        ≤ kBufferCapacity := by
    rw [Within, hbuffer, ← hs.1, ← hcells, Scratch.length_memcpy_eq_iff, Scratch.pos_memcpy,
      List.length_append]
    exact and_self_iff
  rw [hwithin, EndsAtBoundary, ← hpos]
  by_cases hcolor : isColorEnabled ansi s.mode = true ∧ HasColor level
  · have hlen := length_linePrefix_of_color hcolor content.length
    constructor
    · rintro hend ⟨-, -, hboundary⟩
      omega
    · intro hboundary
      have hne : out.pos + estimateLength (isColorEnabled ansi s.mode) level content.length
          ≠ kBufferCapacity := fun heq => hboundary ⟨hcolor.1, hcolor.2, heq⟩
      omega
  · have hle := length_linePrefix_le hcolor content.length
    exact ⟨fun _ ⟨hcolored, hlevel, _⟩ => hcolor ⟨hcolored, hlevel⟩, fun _ => by omega⟩

theorem create_within (mode : ColorMode) : (create mode).Within :=
  ⟨List.length_replicate, Nat.zero_le _⟩

/-- **The buffered sink writes past its buffer** exactly when it takes a coloured record to end with
it. -/
theorem buffered_inside_iff {mode : ColorMode} {records : List (LogLevel × List Byte)}
    (hest : ∀ r ∈ records,
      estimateLength (isColorEnabled ansi mode) r.1 r.2.length ≤ kBufferCapacity) :
    (∀ k, ((create mode).onLogs true ansi (records.take k)).Within)
      ↔ ∀ (k : ℕ) (h : k < records.length),
        ¬((create mode).onLogs true ansi (records.take k)).EndsAtBoundary ansi
          records[k].1 records[k].2 := by
  have hstep : ∀ {k : ℕ} (h : k < records.length),
      ((create mode).onLogs true ansi (records.take k)).Within →
      (((create mode).onLogs true ansi (records.take (k + 1))).Within
        ↔ ¬((create mode).onLogs true ansi (records.take k)).EndsAtBoundary ansi
          records[k].1 records[k].2) := by
    intro k h hwithin
    rw [List.take_succ_eq_append_getElem h, onLogs_append]
    refine within_onLog hwithin ?_
    rw [onLogs_mode]
    exact hest _ (List.getElem_mem h)
  constructor
  · intro hall k h
    exact (hstep h (hall k)).mp (hall (k + 1))
  · intro hnone k
    induction k with
    | zero => exact create_within mode
    | succ k ih =>
      by_cases h : k < records.length
      · exact (hstep h ih).mpr (hnone k h)
      · rw [List.take_of_length_le (by omega)]
        rwa [List.take_of_length_le (by omega)] at ih

/-- What the buffered sink relies on over a sequence of records: no record is longer than its
estimate, and all of them are written inside the buffer. -/
structure BufferSafe (ansi : Bool) (mode : ColorMode) (records : List (LogLevel × List Byte)) :
    Prop where
  estimate : ∀ r ∈ records, ∀ out : Scratch Byte,
    (buildMessage (isColorEnabled ansi mode) out r.1 r.2).pos - out.pos
      ≤ estimateLength (isColorEnabled ansi mode) r.1 r.2.length
  within : ∀ k, ((create mode).onLogs true ansi (records.take k)).Within

/-- **Records are written within their estimates and inside the buffer** exactly if none of them is
coloured. -/
theorem buffered_within_iff {mode : ColorMode} {records : List (LogLevel × List Byte)}
    (hest : ∀ r ∈ records,
      estimateLength (isColorEnabled ansi mode) r.1 r.2.length ≤ kBufferCapacity) :
    BufferSafe ansi mode records
      ↔ isColorEnabled ansi mode = false ∨ ∀ r ∈ records, ¬HasColor r.1 := by
  have hwritten : ∀ (r : LogLevel × List Byte) (out : Scratch Byte),
      (buildMessage (isColorEnabled ansi mode) out r.1 r.2).pos - out.pos
        = (linePrefix (isColorEnabled ansi mode) r.1).length + r.2.length := by
    intro r out
    rw [buildMessage_eq, Scratch.pos_memcpy, List.length_append, Nat.add_sub_cancel_left]
  constructor
  · intro hsafe
    refine (Bool.eq_false_or_eq_true _).symm.imp_right fun hcolored r hr hlevel => ?_
    have hlen := length_linePrefix_of_color ⟨hcolored, hlevel⟩ r.2.length
    have hle := hsafe.estimate r hr (.start [])
    rw [hwritten] at hle
    omega
  · intro hplain
    have hplain : ∀ r ∈ records, ¬(isColorEnabled ansi mode = true ∧ HasColor r.1) := by
      rintro r hr ⟨hcolored, hlevel⟩
      rcases hplain with hoff | hnone
      · rw [hoff] at hcolored
        cases hcolored
      · exact hnone r hr hlevel
    constructor
    · intro r hr out
      rw [hwritten]
      exact length_linePrefix_le (hplain r hr) _
    · refine (buffered_inside_iff hest).mpr ?_
      rintro k h ⟨hcolored, hlevel, -⟩
      rw [onLogs_mode] at hcolored
      exact hplain _ (List.getElem_mem h) ⟨hcolored, hlevel⟩

theorem buffered_within_iff_raw :
    BufferSafe false .kAlways [(.kRaw, []), (.kUnknown, ascii "x")]
      ↔ isColorEnabled false .kAlways = false
        ∨ ∀ r ∈ [(LogLevel.kRaw, []), (.kUnknown, ascii "x")], ¬HasColor r.1 :=
  buffered_within_iff (by decide)

/-- An information of 4078 bytes is taken to fill the buffer, and is one byte longer. -/
theorem buffered_past_end : ¬∀ (ansi : Bool) (mode : ColorMode)
    (records : List (LogLevel × List Byte)),
    (∀ r ∈ records, estimateLength (isColorEnabled ansi mode) r.1 r.2.length ≤ kBufferCapacity) →
    BufferSafe ansi mode records := by
  intro hall
  have hpast : ∀ content : List Byte, content.length = 4078 →
      ¬BufferSafe false .kAlways [(.kInfo, content)] := by
    intro content hlength hsafe
    have hlen : estimateLength (isColorEnabled false .kAlways) .kInfo content.length
        = kBufferCapacity := by
      rw [hlength]
      decide
    refine (within_onLog (create_within .kAlways) hlen.le).mp (hsafe.within 1) ⟨rfl, by decide, ?_⟩
    have hstart : (create .kAlways).recordStart kBufferCapacity = 0 := by decide
    change (create .kAlways).recordStart
        (estimateLength (isColorEnabled false .kAlways) .kInfo content.length)
      + estimateLength (isColorEnabled false .kAlways) .kInfo content.length = kBufferCapacity
    rw [hlen, hstart, Nat.zero_add]
  refine hpast (List.replicate 4078 0) List.length_replicate (hall _ _ _ ?_)
  intro r hr
  rw [List.mem_singleton.mp hr, List.length_replicate]
  decide

/-! ## The direct path -/

/-- **The direct path of a record is complete and in bounds**: the whole record is passed to
`write` after what was buffered, and the array it has been built in has not been left. -/
structure DirectSafe (enableBuffering ansi : Bool) (s : StdoutSink) (level : LogLevel)
    (content : List Byte) : Prop where
  complete : (s.onLog enableBuffering ansi level content).writes
    = (if enableBuffering then s.flush else s).writes
      ++ [linePrefix (isColorEnabled ansi s.mode) level ++ content]
  within : (directBuffer (isColorEnabled ansi s.mode) level content).cells.length = kBufferCapacity

theorem writeDirect_writes (ansi : Bool) (s : StdoutSink) (level : LogLevel) (content : List Byte) :
    (s.writeDirect ansi level content).writes
      = s.writes ++ [linePrefix (isColorEnabled ansi s.mode) level ++ content] := by
  rw [writeDirect, directBuffer, buildMessage_eq]
  dsimp only
  rw [Scratch.filled_memcpy]
  rfl

/-- **The array of the direct path holds** the records that are no longer than itself. -/
theorem direct_complete_iff {enableBuffering : Bool}
    (hdirect : enableBuffering = false
      ∨ kBufferCapacity < estimateLength (isColorEnabled ansi s.mode) level content.length) :
    DirectSafe enableBuffering ansi s level content
      ↔ (linePrefix (isColorEnabled ansi s.mode) level).length + content.length
        ≤ kBufferCapacity := by
  have hcomplete : (s.onLog enableBuffering ansi level content).writes
      = (if enableBuffering then s.flush else s).writes
        ++ [linePrefix (isColorEnabled ansi s.mode) level ++ content] := by
    cases enableBuffering with
    | false => exact writeDirect_writes ansi s level content
    | true =>
      have hlong := hdirect.resolve_left (by decide)
      have hfull : kBufferCapacity < s.buffer.pos
          + estimateLength (isColorEnabled ansi s.mode) level content.length := by omega
      simp only [onLog, not_true_eq_false, if_false, if_pos hlong, if_pos hfull, if_true,
        writeDirect_writes, flush_mode]
  have hwithin : (directBuffer (isColorEnabled ansi s.mode) level content).cells.length
        = kBufferCapacity
      ↔ (linePrefix (isColorEnabled ansi s.mode) level).length + content.length
        ≤ kBufferCapacity := by
    have hlen : (List.replicate kBufferCapacity (0 : Byte)).length = kBufferCapacity :=
      List.length_replicate
    have hiff := Scratch.length_memcpy_eq_iff (.start (List.replicate kBufferCapacity 0))
      (linePrefix (isColorEnabled ansi s.mode) level ++ content)
    rw [directBuffer, buildMessage_eq]
    simpa only [Scratch.start, hlen, List.length_append, Nat.zero_add] using hiff
  exact ⟨fun h => hwithin.mp h.within, fun h => ⟨hcomplete, hwithin.mpr h⟩⟩

theorem direct_complete_iff_short :
    DirectSafe false false (create .kAlways) .kInfo (ascii "up")
      ↔ (linePrefix true .kInfo).length + (ascii "up").length ≤ kBufferCapacity :=
  direct_complete_iff (.inl rfl)

/-- A raw record of 4097 bytes. -/
theorem direct_past_end : ¬∀ (enableBuffering ansi : Bool) (s : StdoutSink) (level : LogLevel)
    (content : List Byte),
    (enableBuffering = false
      ∨ kBufferCapacity < estimateLength (isColorEnabled ansi s.mode) level content.length) →
    DirectSafe enableBuffering ansi s level content := by
  intro hall
  have hsafe := hall false false (create .kNever) .kRaw (List.replicate 4097 0) (.inl rfl)
  have hwithin := hsafe.within
  simp only [directBuffer, buildMessage_eq, Scratch.length_memcpy, List.length_append,
    Scratch.start, List.length_replicate, kBufferCapacity] at hwithin
  omega

/-- **A record that is too long for the buffer is too long for the array**, unless it is raw or of
an unknown level: the path for long records overruns its array with every other of them. -/
theorem oversize_past_end (hlevel : HasColor level)
    (hest : kBufferCapacity < estimateLength colored level content.length) :
    kBufferCapacity < (linePrefix colored level).length + content.length := by
  have htable : ∀ colored level, HasColor level →
      estimateLength colored level 0 ≤ (linePrefix colored level).length := by
    intro colored level
    cases colored <;> cases level <;> decide
  have hle := htable colored level hlevel
  rw [estimateLength_add] at hest
  omega

/-! ## The sink as an outlet -/

/-- The buffered sink, seen as an outlet. -/
def view (s : StdoutSink) : Outlet Byte := ⟨kBufferCapacity, true, s.buffer, s.writes⟩

/-- A record, seen as an outlet's. -/
def record (ansi : Bool) (s : StdoutSink) (r : LogLevel × List Byte) : Outlet.Record Byte :=
  let colored := isColorEnabled ansi s.mode
  ⟨estimateLength colored r.1 r.2.length, linePrefix colored r.1 ++ r.2⟩

/-- The flush of `on_log`. -/
def makeRoom (ansi : Bool) (s : StdoutSink) (r : LogLevel × List Byte) : StdoutSink :=
  let totalLen := estimateLength (isColorEnabled ansi s.mode) r.1 r.2.length
  if kBufferCapacity < s.buffer.pos + totalLen then s.flush else s

/-- `on_log` from behind its flush on. -/
def take (ansi : Bool) (s : StdoutSink) (r : LogLevel × List Byte) : StdoutSink :=
  let colored := isColorEnabled ansi s.mode
  let totalLen := estimateLength colored r.1 r.2.length
  if kBufferCapacity < totalLen then s.writeDirect ansi r.1 r.2
  else { s with buffer := buildMessage colored s.buffer r.1 r.2 }

theorem view_flush (s : StdoutSink) : s.flush.view = s.view.flush := by
  have hopen : s.view.isOpen = false ↔ False := by simp [view]
  rw [flush, apply_ite view, Outlet.flush]
  simp only [hopen, or_false]
  rfl

theorem view_makeRoom (ansi : Bool) (s : StdoutSink) (r : LogLevel × List Byte) :
    (s.makeRoom ansi r).view = s.view.makeRoom (s.record ansi r) := by
  rw [makeRoom, apply_ite view, view_flush, Outlet.makeRoom]
  rfl

theorem view_take (ansi : Bool) (s : StdoutSink) (r : LogLevel × List Byte) :
    (s.take ansi r).view = s.view.take (s.record ansi r) := by
  have hopen : s.view.isOpen = false ↔ False := by simp [view]
  have hdirect : (s.writeDirect ansi r.1 r.2).view
      = { s.view with writes := s.view.writes ++ [(s.record ansi r).text] } := by
    refine Outlet.ext rfl rfl rfl ?_
    exact writeDirect_writes ansi s r.1 r.2
  rw [take, apply_ite view, hdirect, buildMessage_eq, Outlet.take]
  simp only [hopen, if_false]
  rfl

/-- **The buffered sink works as an outlet does.** -/
def driver (ansi : Bool) : Outlet.Driver StdoutSink (LogLevel × List Byte) Byte where
  flush := flush
  makeRoom := makeRoom ansi
  take := take ansi
  view := view
  record := record ansi
  view_flush := view_flush
  view_makeRoom := view_makeRoom ansi
  view_take := view_take ansi

theorem onLog_eq (s : StdoutSink) (r : LogLevel × List Byte) :
    s.onLog true ansi r.1 r.2 = (driver ansi).log s r := by
  have hmode : (s.makeRoom ansi r).mode = s.mode := by
    rw [makeRoom, apply_ite mode, flush_mode, ite_self]
  have hcolored := congrArg (isColorEnabled ansi) hmode
  change _ = (s.makeRoom ansi r).take ansi r
  rw [take, hcolored]
  rfl

end StdoutSink

end Femtolog
