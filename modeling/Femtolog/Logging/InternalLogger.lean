import Femtolog.Queue.Spsc
import Femtolog.Logging.Format
import Femtolog.Serialize.RoundTrip

/-!
# Logging/InternalLogger — the frontend's half of a log call

`InternalLogger::log` filters by level, lays the message out as an entry in `entry_buffer_`, and
enqueues the entry; a message that is too long, or for which the queue has no room, is dropped.  A
call is counted as enqueued or as dropped (`log_spec`), and what is enqueued is one whole frame.
-/

namespace Femtolog

/-! ## Log calls -/

/-- A call of `InternalLogger::log<level, fmt, ref_mode>`: its arguments, the memory they lie in,
and the header its instantiation stores.  Null pointers to `char`, whose length is undefined, are
left out. -/
structure LogCall (env : Env) where
  level : LogLevel
  fmt : List Byte
  refMode : Bool
  args : List Arg
  mem : Memory
  header : SerializedArgsHeader
  formatAt : args ≠ [] → env.formatAt header.formatFunc = some fmt
  deserializeAt : args ≠ [] → env.deserializeAt header.deserializeAndFormatFunc
    = some (refMode, args.map fun a => a.type.decay)
  compiles : args ≠ [] → StaticAsserts 2048#64 refMode (args.map Arg.type)
  strings : ∀ a ∈ args, a.IsString

namespace LogCall

variable {env : Env}

/-- A call without arguments, whose format string is the message. -/
def literal (level : LogLevel) (message : List Byte) : LogCall env where
  level
  fmt := message
  refMode := false
  args := []
  mem := .blank
  header := ⟨0#64, 0#64⟩
  formatAt := (absurd rfl ·)
  deserializeAt := (absurd rfl ·)
  compiles := (absurd rfl ·)
  strings := nofun

/-- The format id of the entry. -/
def formatId (call : LogCall env) : BitVec 16 :=
  if call.args = [] then kLiteralLogStringId else getStringId call.fmt

/-- The payload of the entry: the literal, or header and records. -/
def payload (call : LogCall env) : Option (List Byte) :=
  if call.args = [] then some call.fmt
  else (call.args.mapM (Arg.record call.refMode call.mem)).map fun rs =>
    call.header.bytes ++ rs.flatten

/-- **The entry `e` is the one of the call.** -/
structure IsEntry (threadId : BitVec 32) (call : LogCall env) (e : LogEntry) : Prop where
  payload : call.payload = some e.payload
  short : e.payload.length < kMaxPayloadSize
  sized : e.Sized
  formatId : e.formatId = call.formatId
  threadId : e.threadId = threadId
  level : e.level = call.level

end LogCall

/-! ## The code -/

/-- The members of `InternalLogger` that a log call reads or writes. -/
structure InternalLogger where
  level : LogLevel
  threadId : BitVec 32
  enqueuedCount : Size
  droppedCount : Size
  serializer : SerializedArgs 2048#64
  queue : SpscQueue
  entryBuffer : List Byte
  terminateOnFatal : Bool
  length_entryBuffer : entryBuffer.length = sizeofLogEntry + kMaxPayloadSize

/-- What a log call leads to: the bytes that went into the queue, if any, and whether the worker is
to be stopped and the program terminated. -/
structure LogResult where
  logger : InternalLogger
  accepted : Option (List Byte)
  terminate : Bool

namespace InternalLogger

/-- The branch that drops a message. -/
def drop (l : InternalLogger) : LogResult :=
  ⟨{ l with droppedCount := l.droppedCount + 1#64 }, none, false⟩

/-- `LogEntry::create` over `entry_buffer_`. -/
def createEntry (l : InternalLogger) (formatId : BitVec 16) (level : LogLevel)
    (payload : List Byte) (h : payload.length < kMaxPayloadSize) : InternalLogger :=
  { l with
    entryBuffer := LogEntry.create l.entryBuffer l.threadId formatId level 0#64 payload
    length_entryBuffer :=
      (LogEntry.length_create _ _ _ _ (by rw [l.length_entryBuffer]; omega)).trans
        l.length_entryBuffer }

/-- `enqueue_log_entry` of the entry in `entry_buffer_`. -/
def enqueueLogEntry (l : InternalLogger) : LogResult :=
  let entry := LogEntry.parse l.entryBuffer
  let bytes := l.entryBuffer.take entry.totalSize
  let result := l.queue.enqueueBytes bytes
  let terminate := decide (entry.level = .kFatal) && l.terminateOnFatal
  if result.1 = .kOk then
    ⟨{ l with queue := result.2, enqueuedCount := l.enqueuedCount + 1#64 }, some bytes, terminate⟩
  else ⟨{ l with queue := result.2, droppedCount := l.droppedCount + 1#64 }, none, terminate⟩

/-- `log_literal`. -/
def logLiteral (l : InternalLogger) (level : LogLevel) (message : List Byte) : LogResult :=
  if h : kMaxPayloadSize ≤ message.length then l.drop
  else (l.createEntry kLiteralLogStringId level message (Nat.lt_of_not_le h)).enqueueLogEntry

/-- `log_serialized`. -/
def logSerialized (l : InternalLogger) (level : LogLevel) (formatId : BitVec 16)
    (serialized : SerializedArgs 2048#64) : LogResult :=
  if h : kMaxPayloadSize ≤ serialized.size.toNat ∨ serialized.size = 0#64 then l.drop
  else
    have hshort : serialized.bytes.length < kMaxPayloadSize :=
      lt_of_le_of_lt (List.length_take_le _ _) (Nat.lt_of_not_le fun hle => h (.inl hle))
    (l.createEntry formatId level serialized.bytes hshort).enqueueLogEntry

/-- `log`.  Both branches of its level check compare with the same threshold. -/
def log (l : InternalLogger) (running : Bool) {env : Env} (call : LogCall env) :
    Option LogResult :=
  if l.level.toByte < call.level.toByte then some ⟨l, none, false⟩
  else if !running then some ⟨l, none, false⟩
  else if call.args = [] then some (l.logLiteral call.level call.fmt)
  else
    (serialize call.refMode call.mem call.header l.serializer call.args).map fun serialized =>
      { l with serializer := serialized }.logSerialized call.level (getStringId call.fmt) serialized

/-! ## What a log call does -/

/-- What a log call leaves alone. -/
structure Kept (l l' : InternalLogger) : Prop where
  level : l'.level = l.level
  threadId : l'.threadId = l.threadId
  terminateOnFatal : l'.terminateOnFatal = l.terminateOnFatal

/-- The call passes the level filter, and the worker runs. -/
def Passes {env : Env} (l : InternalLogger) (running : Bool) (call : LogCall env) : Prop :=
  ¬l.level.toByte < call.level.toByte ∧ running = true

/-- **What a log call does** to a logger whose queue has the bytes `s`: it is ignored; or its
message is dropped and counted so; or one frame goes into the queue and is counted. -/
inductive Logged {env : Env} (l : InternalLogger) (running : Bool) (s : List Byte)
    (call : LogCall env) : LogResult → Prop
  | ignored (hpass : ¬l.Passes running call) : Logged l running s call ⟨l, none, false⟩
  | dropped {l' : InternalLogger} {terminate : Bool} (hpass : l.Passes running call)
      (hkept : l.Kept l') (henqueued : l'.enqueuedCount = l.enqueuedCount)
      (hdropped : l'.droppedCount = l.droppedCount + 1#64) (hqueue : l'.queue.HasBytes s)
      (hterminate : terminate = true → call.level = .kFatal ∧ l.terminateOnFatal = true) :
      Logged l running s call ⟨l', none, terminate⟩
  | enqueued {l' : InternalLogger} {bytes : List Byte} {e : LogEntry} {terminate : Bool}
      (hpass : l.Passes running call) (hkept : l.Kept l')
      (henqueued : l'.enqueuedCount = l.enqueuedCount + 1#64)
      (hdropped : l'.droppedCount = l.droppedCount) (hentry : call.IsEntry l.threadId e)
      (hframe : e.IsFrame bytes) (hqueue : l'.queue.HasBytes (s ++ bytes))
      (hterminate : terminate = true → call.level = .kFatal ∧ l.terminateOnFatal = true) :
      Logged l running s call ⟨l', some bytes, terminate⟩

section

variable {env : Env} {l : InternalLogger} {running : Bool} {s : List Byte} {call : LogCall env}

/-- The entry laid out in `entry_buffer_` is found there, as one frame. -/
theorem createEntry_spec (l : InternalLogger) (formatId : BitVec 16) (level : LogLevel)
    {payload : List Byte} (hshort : payload.length < kMaxPayloadSize) :
    let l' := l.createEntry formatId level payload hshort
    let e : LogEntry :=
      ⟨BitVec.ofNat 16 payload.length, formatId, l.threadId, 0#64, level, payload⟩
    LogEntry.parse l'.entryBuffer = e ∧ e.IsFrame (l'.entryBuffer.take e.totalSize) := by
  intro l' e
  have hlen : payload.length < 2 ^ 16 := by
    rw [kMaxPayloadSize, sizeofLogEntry] at hshort
    omega
  have hroom : sizeofLogEntry + payload.length ≤ l.entryBuffer.length := by
    rw [l.length_entryBuffer]
    omega
  have htotal : e.totalSize = sizeofLogEntry + payload.length :=
    congrArg (sizeofLogEntry + ·) (toNat_ofNat_of_lt hlen)
  have hframe : e.IsFrame (l'.entryBuffer.take e.totalSize) :=
    htotal ▸ LogEntry.isFrame_create l.threadId formatId level 0#64 hlen hroom
  refine ⟨?_, hframe⟩
  rw [← List.take_append_drop e.totalSize l'.entryBuffer]
  exact hframe.parse_append _

/-- An entry laid out in `entry_buffer_` is enqueued as one frame, or dropped. -/
theorem enqueueLogEntry_spec (hq : l.queue.HasBytes s) (hpass : l.Passes running call)
    (serializer : SerializedArgs 2048#64) {formatId : BitVec 16} {payload : List Byte}
    (hshort : payload.length < kMaxPayloadSize) (hpayload : call.payload = some payload)
    (hformat : formatId = call.formatId) :
    Logged l running s call
      ({ l with serializer }.createEntry formatId call.level payload hshort).enqueueLogEntry := by
  obtain ⟨hparse, hframe⟩ := createEntry_spec { l with serializer } formatId call.level hshort
  have hentry : call.IsEntry l.threadId
      ⟨BitVec.ofNat 16 payload.length, formatId, l.threadId, 0#64, call.level, payload⟩ :=
    ⟨hpayload, hshort, hframe.sized, hformat, rfl, rfl⟩
  have hqueue :
      ({ l with serializer }.createEntry formatId call.level payload hshort).queue.HasBytes s := hq
  have hbytes := hqueue.enqueueBytes hframe.length_lt
  have hterminate : (decide (call.level = .kFatal) && l.terminateOnFatal) = true →
      call.level = .kFatal ∧ l.terminateOnFatal = true := by
    intro h
    rw [Bool.and_eq_true, decide_eq_true_eq] at h
    exact h
  rw [enqueueLogEntry, hparse]
  split_ifs with hok
  · rw [if_pos hok] at hbytes
    exact .enqueued hpass ⟨rfl, rfl, rfl⟩ rfl rfl hentry hframe hbytes hterminate
  · rw [if_neg hok] at hbytes
    exact .dropped hpass ⟨rfl, rfl, rfl⟩ rfl rfl hbytes hterminate

/-- A literal is dropped, or enqueued as an entry. -/
theorem logLiteral_spec (hq : l.queue.HasBytes s) (hpass : l.Passes running call)
    (hargs : call.args = []) : Logged l running s call (l.logLiteral call.level call.fmt) := by
  rw [logLiteral]
  split_ifs with hlong
  · exact .dropped hpass ⟨rfl, rfl, rfl⟩ rfl rfl hq nofun
  · exact enqueueLogEntry_spec hq hpass l.serializer _ (if_pos hargs) (if_pos hargs).symm

/-- A serialized message is dropped, or enqueued as an entry. -/
theorem logSerialized_spec (hq : l.queue.HasBytes s) (hpass : l.Passes running call)
    (hargs : call.args ≠ []) {serialized : SerializedArgs 2048#64}
    (hserialize : serialize call.refMode call.mem call.header l.serializer call.args
      = some serialized) :
    Logged l running s call ({ l with serializer := serialized }.logSerialized call.level
      (getStringId call.fmt) serialized) := by
  rw [logSerialized]
  split_ifs with hdrop
  · exact .dropped hpass ⟨rfl, rfl, rfl⟩ rfl rfl hq nofun
  · obtain ⟨rs, hrs, hbytes⟩ :=
      bytes_of_serialize call.strings hserialize fun hzero => hdrop (.inr hzero)
    have hpayload : call.payload = some serialized.bytes := by
      rw [LogCall.payload, if_neg hargs, hrs, Option.map_some, hbytes]
    exact enqueueLogEntry_spec hq hpass serialized _ hpayload (if_neg hargs).symm

/-- **A log call that returns is ignored, dropped or enqueued.** -/
theorem log_spec (hq : l.queue.HasBytes s) {result : LogResult}
    (h : l.log running call = some result) : Logged l running s call result := by
  rw [log] at h
  split_ifs at h with hlevel hrunning hargs
  · rw [← Option.some.inj h]
    exact .ignored fun hpass => hpass.1 hlevel
  · rw [← Option.some.inj h]
    exact .ignored fun hpass => by simp [hpass.2] at hrunning
  · rw [← Option.some.inj h]
    exact logLiteral_spec hq ⟨hlevel, by simpa using hrunning⟩ hargs
  · obtain ⟨serialized, hserialize, rfl⟩ := Option.map_eq_some_iff.mp h
    exact logSerialized_spec hq ⟨hlevel, by simpa using hrunning⟩ hargs hserialize

end

end InternalLogger

end Femtolog
