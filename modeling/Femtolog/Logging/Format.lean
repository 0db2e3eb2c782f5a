import Femtolog.Logging.LogEntry
import Femtolog.Serialize.ArgsSerializer
import Femtolog.Serialize.ArgsDeserializer

/-!
# Logging/Format — from an entry to the sinks

`process_log_entry` turns an entry in the dequeue buffer into one `on_log` call per sink.  A literal
is copied to the stack; any other payload starts with two function pointers, by which it is
deserialized and formatted into `format_buffer_`.  The formatter stores what fits and returns the
size of the whole text, and that size goes to the sinks: a text longer than the buffer makes them
read past what was written (`on_log_within_buffer`).
-/

namespace Femtolog

/-! ## What the code is linked with -/

/-- What the logger is compiled and linked with: the text `fmt` makes of a format string and its
arguments, the capacity `fmt::memory_buffer` has after a `reserve`, the order in which the compiler
evaluates arguments, and the instantiations of `FormatDispatcher` and `DeserializeDispatcher` that
lie at the function addresses of the program. -/
structure Env where
  vformat : List Byte → List Value → List Byte
  reserve : ℕ → ℕ
  le_reserve : ∀ n, n ≤ reserve n
  order : EvalOrder
  formatAt : Size → Option (List Byte)
  deserializeAt : Size → Option (Bool × List CppType)
  formatAt_null : formatAt 0#64 = none
  deserializeAt_null : deserializeAt 0#64 = none

/-- `FormatDispatcher<fmt>::format` on a buffer: `vformat_to_n` stores what fits the capacity, and
returns the size of the whole text. -/
def FormatDispatcher.format (env : Env) (fmt : List Byte) (buf : List Byte) (args : List Value) :
    ℕ × List Byte :=
  let text := env.vformat fmt args
  (text.length, splice buf 0 (text.take buf.length))

/-- `format_buffer_` after the `reserve` of `init`. -/
def Env.formatBuffer (env : Env) (backendFormatBufferSize : ℕ) : List Byte :=
  List.replicate (env.reserve backendFormatBufferSize) 0

@[simp] theorem Env.length_formatBuffer (env : Env) (n : ℕ) :
    (env.formatBuffer n).length = env.reserve n := List.length_replicate

/-! ## Processing an entry -/

/-- One call of a sink's `on_log`: the entry, what lies at the pointer passed, and the length. -/
structure OnLog where
  entry : LogEntry
  buffer : List Byte
  len : ℕ
  deriving DecidableEq

/-- The bytes a sink reads. -/
def OnLog.content (r : OnLog) : List Byte := r.buffer.take r.len

/-- The header at the start of a payload. -/
def headerAt (payload : List Byte) : Option SerializedArgsHeader :=
  (window payload 0 8).bind fun formatFunc =>
  (window payload 8 8).map fun deserializeFunc =>
    ⟨ofWordBytes formatFunc, ofWordBytes deserializeFunc⟩

/-- A header is found where it was written. -/
theorem headerAt_bytes (header : SerializedArgsHeader) (rest : List Byte) :
    headerAt (header.bytes ++ rest) = some header := by
  have hformat : window (header.bytes ++ rest) 0 8 = some (wordBytes header.formatFunc) := by
    rw [SerializedArgsHeader.bytes, List.append_assoc, ← List.nil_append (wordBytes _ ++ _)]
    exact window_eq rfl (length_wordBytes _).symm
  have hdeserialize : window (header.bytes ++ rest) 8 8
      = some (wordBytes header.deserializeAndFormatFunc) := by
    rw [SerializedArgsHeader.bytes, List.append_assoc]
    exact window_eq (length_wordBytes _).symm (length_wordBytes _).symm
  rw [headerAt, hformat, Option.bind_some, hdeserialize, Option.map_some, ofWordBytes_wordBytes,
    ofWordBytes_wordBytes]

/-- `process_log_entry` on the entry in the dequeue buffer: the format buffer after it, and the call
every sink gets.  Undefined where it leaves a buffer or calls through an address without code. -/
def processLogEntry (env : Env) (now : Size) (formatBuffer dequeueBuffer : List Byte) :
    Option (List Byte × Option OnLog) :=
  let entry := { LogEntry.parse dequeueBuffer with timestampNs := now }
  if entry.formatId = kLiteralLogStringId then
    let n := min kMaxPayloadSize entry.payloadLen.toNat
    if n < kMaxPayloadSize then
      some (formatBuffer, some ⟨entry, entry.payload.take n ++ [0], n⟩)
    else none  -- `buf[n] = '\0'`
  else
    let payload := dequeueBuffer.drop sizeofLogEntry
    (headerAt payload).bind fun header =>
    if header.deserializeAndFormatFunc = 0#64 ∨ header.formatFunc = 0#64 then
      some (formatBuffer, none)
    else
      (env.formatAt header.formatFunc).bind fun fmt =>
      (env.deserializeAt header.deserializeAndFormatFunc).bind fun dispatcher =>
      (deserializeAndFormat dispatcher.1 env.order dispatcher.2
        (FormatDispatcher.format env fmt formatBuffer) (payload.drop 16)).map fun result =>
        (result.2, some ⟨entry, result.2, result.1⟩)

/-! ## The message in an entry -/

/-- The format string and the arguments that a formatted entry in the dequeue buffer comes to. -/
def messageIn (env : Env) (dequeueBuffer : List Byte) : Option (List Byte × List Value) :=
  let payload := dequeueBuffer.drop sizeofLogEntry
  (headerAt payload).bind fun header =>
  (env.formatAt header.formatFunc).bind fun fmt =>
  (env.deserializeAt header.deserializeAndFormatFunc).bind fun dispatcher =>
  (deserializeAndFormat dispatcher.1 env.order dispatcher.2 id (payload.drop 16)).map fun args =>
    (fmt, args)

/-- The format function gets whatever arguments were read. -/
theorem deserializeAndFormat_map {β : Type} (refMode : Bool) (o : EvalOrder) (types : List CppType)
    (fmtFunction : List Value → β) (data : List Byte) :
    deserializeAndFormat refMode o types fmtFunction data
      = (deserializeAndFormat refMode o types id data).map fmtFunction := by
  rw [deserializeAndFormat_eq, deserializeAndFormat_eq, formatDirectly.eq_def,
    formatDirectly.eq_def]
  split
  iterate 4 simp [Option.map_bind]
  rw [Option.map_map, Function.comp_id]

/-- **A formatted entry reaches the sinks** with the size of its text, and with what of the text
fits the format buffer. -/
theorem processLogEntry_of_message {env : Env} {dequeueBuffer fmt : List Byte} {args : List Value}
    (hformat : (LogEntry.parse dequeueBuffer).formatId ≠ kLiteralLogStringId)
    (hmessage : messageIn env dequeueBuffer = some (fmt, args)) (now : Size)
    (formatBuffer : List Byte) :
    let result := FormatDispatcher.format env fmt formatBuffer args
    processLogEntry env now formatBuffer dequeueBuffer = some (result.2,
      some ⟨{ LogEntry.parse dequeueBuffer with timestampNs := now }, result.2, result.1⟩) := by
  obtain ⟨header, hheader, hrest⟩ := Option.bind_eq_some_iff.mp hmessage
  obtain ⟨fmt', hfmt, hrest⟩ := Option.bind_eq_some_iff.mp hrest
  obtain ⟨dispatcher, hdispatcher, hrest⟩ := Option.bind_eq_some_iff.mp hrest
  obtain ⟨args', hargs, heq⟩ := Option.map_eq_some_iff.mp hrest
  obtain ⟨rfl, rfl⟩ := Prod.mk.inj heq
  have hnull : ¬(header.deserializeAndFormatFunc = 0#64 ∨ header.formatFunc = 0#64) := by
    rintro (h0 | h0)
    · rw [h0, env.deserializeAt_null] at hdispatcher
      cases hdispatcher
    · rw [h0, env.formatAt_null] at hfmt
      cases hfmt
  rw [processLogEntry]
  simp only [if_neg hformat, hheader, Option.bind_some, if_neg hnull, hfmt, hdispatcher]
  rw [deserializeAndFormat_map, hargs, Option.map_some, Option.map_some]

/-! ## What a sink reads -/

/-- **The sink reads what the formatter wrote**: the length is at most the number of bytes written
for `text`, each of them is there, and they start the text. -/
structure OnLog.Within (r : OnLog) (text : List Byte) : Prop where
  le_written : r.len ≤ min r.buffer.length text.length
  length_content : r.content.length = r.len
  content_le : r.content <+: text

/-- The format buffer keeps its capacity. -/
theorem FormatDispatcher.length_format (env : Env) (fmt buf : List Byte) (args : List Value) :
    (FormatDispatcher.format env fmt buf args).2.length = buf.length := by
  refine length_splice ?_
  rw [List.length_take]
  omega

/-- Processing an entry keeps the capacity of the format buffer. -/
theorem length_processLogEntry {env : Env} {now : Size} {formatBuffer dequeueBuffer : List Byte}
    {result : List Byte × Option OnLog}
    (h : processLogEntry env now formatBuffer dequeueBuffer = some result) :
    result.1.length = formatBuffer.length := by
  rw [processLogEntry] at h
  dsimp only at h
  split_ifs at h
  · rw [← Option.some.inj h]
  · obtain ⟨header, -, h⟩ := Option.bind_eq_some_iff.mp h
    split_ifs at h
    · rw [← Option.some.inj h]
    · obtain ⟨fmt, -, h⟩ := Option.bind_eq_some_iff.mp h
      obtain ⟨dispatcher, -, h⟩ := Option.bind_eq_some_iff.mp h
      obtain ⟨formatted, hformatted, rfl⟩ := Option.map_eq_some_iff.mp h
      rw [deserializeAndFormat_map] at hformatted
      obtain ⟨args, -, rfl⟩ := Option.map_eq_some_iff.mp hformatted
      exact FormatDispatcher.length_format env fmt formatBuffer args

/-- A text that fits is what the sinks read. -/
theorem FormatDispatcher.content_eq (env : Env) {fmt buf : List Byte} {args : List Value}
    (entry : LogEntry) (hfits : (env.vformat fmt args).length ≤ buf.length) :
    let result := FormatDispatcher.format env fmt buf args
    (OnLog.mk entry result.2 result.1).content = env.vformat fmt args := by
  change (splice buf 0 ((env.vformat fmt args).take buf.length)).take
    (env.vformat fmt args).length = env.vformat fmt args
  rw [List.take_of_length_le hfits, splice_zero]
  exact List.take_left' rfl

/-- **A formatted text is within the buffer exactly if it fits.** -/
theorem FormatDispatcher.within_iff (env : Env) (fmt buf : List Byte) (args : List Value)
    (entry : LogEntry) :
    let result := FormatDispatcher.format env fmt buf args
    (OnLog.mk entry result.2 result.1).Within (env.vformat fmt args)
      ↔ (env.vformat fmt args).length ≤ buf.length := by
  intro result
  have hlen : result.2.length = buf.length := FormatDispatcher.length_format env fmt buf args
  constructor
  · intro h
    have := h.le_written
    rw [hlen] at this
    exact this.trans (Nat.min_le_left _ _)
  · intro hfits
    have hcontent := FormatDispatcher.content_eq env entry hfits
    refine ⟨?_, ?_, ?_⟩
    · exact le_min (hfits.trans_eq hlen.symm) (le_refl _)
    · rw [hcontent]
      rfl
    · exact hcontent ▸ List.prefix_refl _

/-- **The sinks read formatted bytes exactly if the text fits the format buffer** — whatever the
message and the buffer size asked for at `init`. -/
theorem on_log_within_buffer (env : Env) (now : Size) {dequeueBuffer fmt : List Byte}
    {args : List Value}
    (hformat : (LogEntry.parse dequeueBuffer).formatId ≠ kLiteralLogStringId)
    (hmessage : messageIn env dequeueBuffer = some (fmt, args))
    (backendFormatBufferSize : ℕ) {formatBuffer : List Byte}
    (hcapacity : formatBuffer.length = env.reserve backendFormatBufferSize) :
    ∃ formatBuffer' r, processLogEntry env now formatBuffer dequeueBuffer
        = some (formatBuffer', some r) ∧ formatBuffer'.length = formatBuffer.length ∧
      (r.Within (env.vformat fmt args) ↔
        (env.vformat fmt args).length ≤ env.reserve backendFormatBufferSize) := by
  refine ⟨_, _, processLogEntry_of_message hformat hmessage now formatBuffer,
    FormatDispatcher.length_format env fmt formatBuffer args, ?_⟩
  rw [← hcapacity]
  exact FormatDispatcher.within_iff env fmt formatBuffer args _

/-! ## A message that does not fit -/

/-- An environment with one call site that formats: its functions lie at the addresses 1 and 2.  A
`memory_buffer` has room for 500 bytes from the start. -/
def Env.single (vformat : List Byte → List Value → List Byte) (order : EvalOrder) (fmt : List Byte)
    (refMode : Bool) (types : List CppType) : Env where
  vformat := vformat
  reserve := max 500
  le_reserve := le_max_right 500
  order := order
  formatAt addr := if addr = 1#64 then some fmt else none
  deserializeAt addr := if addr = 2#64 then some (refMode, types) else none
  formatAt_null := rfl
  deserializeAt_null := rfl

/-- The call `info<"{:>501}">(7)`: 500 blanks and a seven. -/
def Env.wide : Env :=
  .single (fun _ _ => List.replicate 500 0x20 ++ [0x37]) .leftToRight
    [0x7b, 0x3a, 0x3e, 0x35, 0x30, 0x31, 0x7d] false [.object false true 4]

theorem Env.length_wide (fmt : List Byte) (args : List Value) :
    (Env.wide.vformat fmt args).length = 501 := by
  change (List.replicate 500 (0x20 : Byte) ++ [0x37]).length = 501
  rw [List.length_append, List.length_replicate]
  rfl

/-- The entry of that call. -/
def wideEntry : List Byte :=
  LogEntry.create (List.replicate 44 0) 1#32 5#16 .kInfo 0#64
    (wordBytes 1#64 ++ (wordBytes 2#64 ++ [7, 0, 0, 0]))

/-- With a format buffer of 1000 bytes the sinks read what was formatted. -/
theorem on_log_within_buffer_wide :
    ∃ formatBuffer' r, processLogEntry .wide 0#64 (Env.wide.formatBuffer 1000) wideEntry
        = some (formatBuffer', some r) ∧
      formatBuffer'.length = (Env.wide.formatBuffer 1000).length ∧
      (r.Within (Env.wide.vformat [0x7b, 0x3a, 0x3e, 0x35, 0x30, 0x31, 0x7d] [.copy [7, 0, 0, 0]]) ↔
        (Env.wide.vformat [0x7b, 0x3a, 0x3e, 0x35, 0x30, 0x31, 0x7d] [.copy [7, 0, 0, 0]]).length
          ≤ Env.wide.reserve 1000) :=
  on_log_within_buffer .wide 0#64 (by decide) (by decide) 1000 (Env.length_formatBuffer _ _)

/-- **With a format buffer of 256 bytes the sinks read past it** — the buffer has its first 500
bytes, and the length passed is 501. -/
theorem on_log_past_buffer :
    ¬∀ (env : Env) (now : Size) (dequeueBuffer fmt : List Byte) (args : List Value)
      (backendFormatBufferSize : ℕ) (formatBuffer formatBuffer' : List Byte) (r : OnLog),
      (LogEntry.parse dequeueBuffer).formatId ≠ kLiteralLogStringId →
      messageIn env dequeueBuffer = some (fmt, args) →
      formatBuffer.length = env.reserve backendFormatBufferSize →
      processLogEntry env now formatBuffer dequeueBuffer = some (formatBuffer', some r) →
      r.Within (env.vformat fmt args) := by
  intro h
  have hformat : (LogEntry.parse wideEntry).formatId ≠ kLiteralLogStringId := by decide
  have hmessage : messageIn .wide wideEntry
      = some ([0x7b, 0x3a, 0x3e, 0x35, 0x30, 0x31, 0x7d], [.copy [7, 0, 0, 0]]) := by decide
  have hwithin := h .wide 0#64 wideEntry _ _ 256 (Env.wide.formatBuffer 256) _ _ hformat hmessage
    (Env.length_formatBuffer _ _) (processLogEntry_of_message hformat hmessage 0#64 _)
  have hfits := (FormatDispatcher.within_iff _ _ _ _ _).mp hwithin
  rw [Env.length_wide, Env.length_formatBuffer] at hfits
  exact absurd hfits (by decide)

end Femtolog
