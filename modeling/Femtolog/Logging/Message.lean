import Femtolog.Logging.InternalLogger
import Femtolog.Serialize.ValueMode

/-!
# Logging/Message — a call's message, from the entry back to its text

The entry of a call holds the literal, or the records of its arguments behind the addresses of its
two functions.  The worker makes of it the text the call stands for (`LogCall.text`), if the
arguments were taken by value and are read in their order (`IsEntry.process`).
-/

namespace Femtolog

variable {env : Env}

namespace LogCall

/-- **The text of a call**: the literal, or what its format string makes of the original
arguments. -/
def text (call : LogCall env) : Option (List Byte) :=
  if call.args = [] then some call.fmt
  else (call.args.mapM (Arg.original call.refMode call.mem)).map (env.vformat call.fmt)

/-- The call is of value mode, and its text fits a format buffer of this capacity. -/
structure ByValue (capacity : ℕ) (call : LogCall env) : Prop where
  refMode : call.args ≠ [] → call.refMode = false
  fits : call.args ≠ [] → ∀ text ∈ call.text, text.length ≤ capacity

/-- The compiler evaluates the reads of the arguments in the order the records lie in, and the sizes
of the arguments add up to a size. -/
structure ReadInOrder (call : LogCall env) : Prop where
  inOrder : env.order.InOrder call.args.length
  sized : serializedSize false call.args < 2 ^ 64

instance (capacity : ℕ) (call : LogCall env) : Decidable (call.ByValue capacity) :=
  decidable_of_iff ((call.args ≠ [] → call.refMode = false) ∧
      (call.args ≠ [] → ∀ text ∈ call.text, text.length ≤ capacity))
    ⟨fun h => ⟨h.1, h.2⟩, fun h => ⟨h.refMode, h.fits⟩⟩

instance (call : LogCall env) : Decidable call.ReadInOrder :=
  decidable_of_iff ((call.args.length ≤ 4 ∨
      env.order.order call.args.length = List.range call.args.length) ∧
      serializedSize false call.args < 2 ^ 64)
    ⟨fun h => ⟨h.1, h.2⟩, fun h => ⟨h.inOrder, h.sized⟩⟩

/-! ## The arguments -/

variable {call : LogCall env} {capacity : ℕ}

/-- The records of a call in value mode stand for its original arguments. -/
theorem exists_records (hargs : call.args ≠ []) (hvalue : call.refMode = false) :
    ∃ records, Records call.refMode call.mem call.args records ∧
      call.args.mapM (Arg.original call.refMode call.mem) = some (records.map Prod.snd) := by
  have hsup : ∀ a ∈ call.args, a.Supported call.refMode := fun a ha =>
    (call.compiles hargs).supported_arg ha
  obtain ⟨records, hrecords⟩ := Femtolog.exists_records call.refMode call.mem call.strings hsup
  refine ⟨records, hrecords, ?_⟩
  rw [← hrecords.handed]
  refine mapM_congr fun a ha => ?_
  rw [hvalue] at hsup ⊢
  exact (Arg.handed_eq_original (hsup a ha)).symm

/-- The reader of the call site, which is compiled for decayed types, reads the records. -/
theorem deserialize_records {refMode : Bool} {mem : Memory} {args : List Arg}
    {records : List (List Byte × Value)} (h : Records refMode mem args records)
    (horder : env.order.InOrder args.length) (rest : List Byte) :
    deserializeAndFormat refMode env.order (args.map fun a => a.type.decay) id
      ((records.map Prod.fst).flatten ++ rest) = some (records.map Prod.snd) := by
  have hreads : List.Forall₂ (fun t r => Reads (readArg refMode) t r.1 r.2)
      (args.map fun a => a.type.decay) records := by
    have hreads := h.reads
    rw [List.forall₂_map_left_iff] at hreads ⊢
    refine hreads.imp fun a r hr before after => ?_
    rw [readArg_decay]
    exact hr before after
  rw [deserializeAndFormat_eq, formatDirectly_eq (by rwa [List.length_map])]
  have hread := readAll_eq hreads [] rest
  rw [List.nil_append, List.length_nil] at hread
  rw [hread, Option.map_some, map_fst_laidOut, id]

namespace IsEntry

variable {threadId : BitVec 32} {e : LogEntry} {bytes : List Byte}

/-- **The records of a call are found in its frame.** -/
theorem messageIn_records (h : call.IsEntry threadId e) (hframe : e.IsFrame bytes)
    (hargs : call.args ≠ []) (horder : env.order.InOrder call.args.length)
    {records : List (List Byte × Value)}
    (hrecords : Records call.refMode call.mem call.args records) (rest : List Byte) :
    Femtolog.messageIn env (bytes ++ rest) = some (call.fmt, records.map Prod.snd) := by
  have hpayload := h.payload
  rw [LogCall.payload, if_neg hargs, hrecords.written, Option.map_some] at hpayload
  have hdata : ((e.payload ++ rest).drop 16) = (records.map Prod.fst).flatten ++ rest := by
    rw [← Option.some.inj hpayload, List.append_assoc]
    exact List.drop_left' (SerializedArgsHeader.length_bytes _)
  have hheader : headerAt (e.payload ++ rest) = some call.header := by
    rw [← Option.some.inj hpayload, List.append_assoc, headerAt_bytes]
  rw [Femtolog.messageIn, hframe.drop_append, hheader, Option.bind_some, call.formatAt hargs,
    Option.bind_some, call.deserializeAt hargs, Option.bind_some, hdata,
    deserialize_records hrecords horder, Option.map_some]

/-- In value mode these are the original arguments. -/
theorem messageIn (h : call.IsEntry threadId e) (hframe : e.IsFrame bytes)
    (hargs : call.args ≠ []) (hvalue : call.refMode = false)
    (horder : env.order.InOrder call.args.length) (rest : List Byte) :
    ∃ originals, call.args.mapM (Arg.original call.refMode call.mem) = some originals ∧
      Femtolog.messageIn env (bytes ++ rest) = some (call.fmt, originals) := by
  obtain ⟨records, hrecords, horiginals⟩ := exists_records hargs hvalue
  exact ⟨_, horiginals, h.messageIn_records hframe hargs horder hrecords rest⟩

/-- The entry of a call is no literal's, if the call has arguments. -/
theorem formatId_parse (h : call.IsEntry threadId e) (hframe : e.IsFrame bytes)
    (hargs : call.args ≠ []) (rest : List Byte) :
    (LogEntry.parse (bytes ++ rest)).formatId ≠ kLiteralLogStringId := by
  rw [hframe.parse_append, h.formatId, LogCall.formatId, if_neg hargs]
  exact getStringId_ne _

/-- **The worker makes of the frame of a call the text of the call.** -/
theorem process (h : call.IsEntry threadId e) (hframe : e.IsFrame bytes)
    {formatBuffer : List Byte} (hvalue : call.ByValue formatBuffer.length)
    (hread : call.ReadInOrder) (now : Size) (rest : List Byte) :
    ∃ formatBuffer' r, processLogEntry env now formatBuffer (bytes ++ rest)
        = some (formatBuffer', some r) ∧
      r.entry = { e with timestampNs := now } ∧ call.text = some r.content ∧
      r.content.length = r.len := by
  by_cases hargs : call.args = []
  · have hformat : e.formatId = kLiteralLogStringId :=
      h.formatId.trans (if_pos hargs)
    have hpayload : e.payload = call.fmt := by
      have hpayload := h.payload
      rw [LogCall.payload, if_pos hargs] at hpayload
      exact (Option.some.inj hpayload).symm
    have hlen : min kMaxPayloadSize e.payloadLen.toNat = e.payload.length := by
      rw [← h.sized]
      exact Nat.min_eq_right h.short.le
    refine ⟨formatBuffer, ⟨{ e with timestampNs := now }, e.payload ++ [0], e.payload.length⟩,
      ?_, rfl, ?_, ?_⟩
    · rw [processLogEntry, hframe.parse_append]
      dsimp only
      rw [if_pos hformat, hlen, if_pos h.short, List.take_length]
    · rw [LogCall.text, if_pos hargs, OnLog.content, List.take_left, hpayload]
    · rw [OnLog.content, List.take_left]
  · obtain ⟨originals, horiginals, hmessage⟩ :=
      h.messageIn hframe hargs (hvalue.refMode hargs) hread.inOrder rest
    have hformat := h.formatId_parse hframe hargs rest
    have htext : call.text = some (env.vformat call.fmt originals) := by
      rw [LogCall.text, if_neg hargs, horiginals, Option.map_some]
    have hcontent := FormatDispatcher.content_eq env { e with timestampNs := now }
      (hvalue.fits hargs _ htext)
    refine ⟨_, _, processLogEntry_of_message hformat hmessage now formatBuffer, ?_, ?_, ?_⟩
    · rw [hframe.parse_append]
    · rw [hframe.parse_append, hcontent, htext]
    · rw [hframe.parse_append, hcontent]
      rfl

end IsEntry

end LogCall

/-- A message that fits the buffer is serialized. -/
theorem LogCall.exists_serialize {call : LogCall env} (hargs : call.args ≠ [])
    (hfits : serializedSize call.refMode call.args < 2048) (args_ : SerializedArgs 2048#64) :
    ∃ out, serialize call.refMode call.mem call.header args_ call.args = some out := by
  obtain ⟨records, hrecords⟩ := Femtolog.exists_records call.refMode call.mem call.strings
    fun a ha => (call.compiles hargs).supported_arg ha
  have hwritten := hrecords.written
  have hroom : serializedSize call.refMode call.args ≤ (2048#64).toNat := hfits.le
  cases hmode : call.refMode with
  | true =>
    rw [hmode] at hwritten hroom
    rw [serialize_ref, hwritten, Option.bind_some]
    exact exists_filled call.header args_ hwritten hroom _
  | false =>
    rw [hmode] at hwritten hroom hfits
    have hword : ¬(2048#64 : Size) ≤ BitVec.ofNat 64 (serializedSize false call.args) := by
      rw [BitVec.le_def, toNat_ofNat_of_lt (hfits.trans (by norm_num))]
      exact Nat.not_le_of_lt hfits
    rw [serialize_value _ _ _ _ call.strings, if_neg hword, hwritten, Option.bind_some]
    exact exists_filled call.header args_ hwritten hroom _

namespace InternalLogger

/-- **A log call in value mode returns.** -/
theorem exists_log (l : InternalLogger) (running : Bool) {call : LogCall env} {capacity : ℕ}
    (hvalue : call.ByValue capacity) (hread : call.ReadInOrder) :
    ∃ result, l.log running call = some result := by
  rw [log]
  split_ifs with hlevel hrunning hargs
  · exact ⟨_, rfl⟩
  · exact ⟨_, rfl⟩
  · exact ⟨_, rfl⟩
  · have hmode := hvalue.refMode hargs
    by_cases hfits : serializedSize call.refMode call.args < 2048
    · obtain ⟨out, hout⟩ := LogCall.exists_serialize hargs hfits l.serializer
      rw [hout]
      exact ⟨_, rfl⟩
    · have hfull : (2048#64 : Size) ≤ BitVec.ofNat 64 (serializedSize false call.args) := by
        rw [BitVec.le_def, toNat_ofNat_of_lt hread.sized]
        rw [hmode] at hfits
        exact Nat.le_of_not_lt hfits
      rw [hmode, serialize_value _ _ _ _ call.strings, if_pos hfull]
      exact ⟨_, rfl⟩

end InternalLogger

end Femtolog
