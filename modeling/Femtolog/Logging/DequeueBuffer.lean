import Femtolog.Logging.Message
import Femtolog.Logging.Rounds

/-!
# Logging/DequeueBuffer — whether the accepted messages fit the worker's buffer

A message is accepted if its payload is shorter than `kMaxPayloadSize` and the queue has room for
it; neither bound knows of `backend_dequeue_buffer_size`.  The longest entry that goes through both
(`largestEntry`) decides whether the worker ever dequeues past the end of its buffer
(`dequeues_fit_iff`).
-/

namespace Femtolog

variable {env : Env}

/-! ## How long an entry is -/

/-- The length of the longest entry that a queue of the capacity can take. -/
def largestEntry (capacity : ℕ) : ℕ := min (sizeofLogEntry + kMaxPayloadSize - 1) capacity

/-- An entry is its fields and the payload. -/
theorem LogCall.Framed.length_eq {threadId : BitVec 32} {call : LogCall env} {bytes : List Byte}
    (h : call.Framed threadId bytes) :
    ∃ payload, call.payload = some payload ∧ payload.length < kMaxPayloadSize ∧
      bytes.length = sizeofLogEntry + payload.length := by
  obtain ⟨e, he, hframe⟩ := h
  exact ⟨e.payload, he.payload, he.short, by rw [hframe.length_eq, LogEntry.totalSize, he.sized]⟩

/-- An entry is longer than its fields, and its payload shorter than `kMaxPayloadSize`. -/
theorem LogCall.Framed.length_mem {threadId : BitVec 32} {call : LogCall env} {bytes : List Byte}
    (h : call.Framed threadId bytes) :
    sizeofLogEntry ≤ bytes.length ∧ bytes.length < sizeofLogEntry + kMaxPayloadSize := by
  obtain ⟨payload, -, hshort, hlength⟩ := h.length_eq
  omega

/-- A frame of a queue is no longer than its longest entry. -/
theorem LogCall.Framed.length_le {threadId : BitVec 32} {call : LogCall env}
    {bytes before after : List Byte} (h : call.Framed threadId bytes) {queue : SpscQueue}
    (hqueue : queue.HasBytes (before ++ (bytes ++ after))) :
    bytes.length ≤ largestEntry queue.capacity.toNat := by
  have hlt := h.length_mem.2
  have hle := hqueue.length_le
  rw [List.length_append, List.length_append] at hle
  rw [largestEntry]
  omega

/-! ## Short messages -/

/-- The size of a call's message: the literal, or header and records. -/
def LogCall.messageSize (call : LogCall env) : ℕ :=
  if call.args = [] then call.fmt.length else serializedSize call.refMode call.args

namespace InternalLogger

variable {l : InternalLogger} {running : Bool} {s b : List Byte} {call : LogCall env}

/-- The result of a call whose entry `frame` is laid out: the entry is accepted if the queue, which
has the bytes `b`, has room, and a fatal one terminates either way. -/
structure LaidOut (l : InternalLogger) (b : List Byte) (call : LogCall env) (frame : List Byte)
    (result : LogResult) : Prop where
  framed : call.Framed l.threadId frame
  accepted : result.accepted
    = if b.length + frame.length ≤ l.queue.capacity.toNat then some frame else none
  terminate : result.terminate = (decide (call.level = .kFatal) && l.terminateOnFatal)

/-- `enqueue_log_entry` of an entry that was created for the call. -/
theorem enqueueLogEntry_laidOut (hq : l.queue.HasBytes b) {formatId : BitVec 16}
    {payload : List Byte} (hshort : payload.length < kMaxPayloadSize)
    (hpayload : call.payload = some payload) (hformat : formatId = call.formatId) :
    ∃ frame, l.LaidOut b call frame
      (l.createEntry formatId call.level payload hshort).enqueueLogEntry := by
  obtain ⟨hparse, hframe⟩ := l.createEntry_spec formatId call.level hshort
  have hframed : call.Framed l.threadId _ :=
    ⟨_, ⟨hpayload, hshort, hframe.sized, hformat, rfl, rfl⟩, hframe⟩
  have hne := List.ne_nil_of_length_pos
    (Nat.lt_of_lt_of_le (by decide : 0 < sizeofLogEntry) hframed.length_mem.1)
  have hroom := hq.enqueueBytes_fst_iff hne hframe.length_lt
  refine ⟨_, hframed, ?_, ?_⟩
  · rw [enqueueLogEntry, hparse]
    split_ifs with hok hfits hfits
    · rfl
    · exact absurd (hroom.mp hok) hfits
    · exact absurd (hroom.mpr hfits) hok
    · rfl
  · rw [enqueueLogEntry, hparse]
    split_ifs <;> rfl

/-- **A short message is laid out**, whatever the arguments. -/
theorem log_of_short (hq : l.queue.HasBytes b) (hpass : l.Passes running call)
    (hshort : call.messageSize < kMaxPayloadSize) :
    ∃ result frame, l.log running call = some result ∧ l.LaidOut b call frame result := by
  have hrunning : ¬(!running) = true := by rw [hpass.2]; decide
  rw [LogCall.messageSize] at hshort
  by_cases hargs : call.args = []
  · rw [if_pos hargs] at hshort
    obtain ⟨frame, hframe⟩ :=
      enqueueLogEntry_laidOut hq hshort (if_pos hargs) (if_pos hargs).symm
    refine ⟨_, frame, ?_, hframe⟩
    rw [log, if_neg hpass.1, if_neg hrunning, if_pos hargs, logLiteral,
      dif_neg (Nat.not_le_of_lt hshort)]
  · rw [if_neg hargs] at hshort
    have hlt : serializedSize call.refMode call.args < 1000 := hshort
    have hheader : 16 ≤ serializedSize call.refMode call.args := Nat.le_add_right _ _
    obtain ⟨serialized, hserialize⟩ := LogCall.exists_serialize hargs (by omega) l.serializer
    have hsize := (size_of_serialize call.strings hserialize).resolve_right fun hgiven => by
      have hle := hgiven.2
      rw [BitVec.le_def, toNat_ofNat_of_lt (by omega), BitVec.toNat_ofNat] at hle
      omega
    have hne : serialized.size ≠ 0#64 := by
      intro hzero
      rw [hzero, BitVec.toNat_zero] at hsize
      omega
    have hdrop : ¬(kMaxPayloadSize ≤ serialized.size.toNat ∨ serialized.size = 0#64) := by
      rw [not_or, Nat.not_le, hsize]
      exact ⟨hshort, hne⟩
    obtain ⟨rs, hrs, hbytes⟩ := bytes_of_serialize call.strings hserialize hne
    have hpayload : call.payload = some serialized.bytes := by
      rw [LogCall.payload, if_neg hargs, hrs, Option.map_some, hbytes]
    have hlen : serialized.bytes.length < kMaxPayloadSize :=
      lt_of_le_of_lt (List.length_take_le _ _) (hsize ▸ hshort)
    have hq' : { l with serializer := serialized }.queue.HasBytes b := hq
    obtain ⟨frame, hframed, haccepted, hterminate⟩ :=
      enqueueLogEntry_laidOut hq' hlen hpayload (if_neg hargs).symm
    refine ⟨_, frame, ?_, hframed, haccepted, hterminate⟩
    rw [log, if_neg hpass.1, if_neg hrunning, if_neg hargs, hserialize, Option.map_some,
      logSerialized, dif_neg hdrop]

/-- A log call leaves the capacity of the queue. -/
theorem capacity_log {result : LogResult} (h : l.log running call = some result) :
    result.logger.queue.capacity = l.queue.capacity := by
  have henqueue : ∀ l' : InternalLogger, l'.queue = l.queue →
      l'.enqueueLogEntry.logger.queue.capacity = l.queue.capacity := by
    intro l' hl'
    rw [enqueueLogEntry]
    split_ifs <;> exact (l'.queue.capacity_enqueueBytes _).trans (congrArg _ hl')
  rw [log] at h
  split_ifs at h
  · rw [← Option.some.inj h]
  · rw [← Option.some.inj h]
  · rw [← Option.some.inj h, logLiteral]
    split_ifs
    · rfl
    · exact henqueue _ rfl
  · obtain ⟨serialized, -, rfl⟩ := Option.map_eq_some_iff.mp h
    rw [logSerialized]
    split_ifs
    · rfl
    · exact henqueue _ rfl

/-- **An accepted entry is no longer than the longest one.** -/
theorem length_accepted_le (hq : l.queue.HasBytes s) {result : LogResult} {bytes : List Byte}
    (h : l.log running call = some result) (haccepted : result.accepted = some bytes) :
    sizeofLogEntry ≤ bytes.length ∧ bytes.length ≤ largestEntry l.queue.capacity.toNat := by
  have hcapacity := capacity_log h
  cases log_spec hq h with
  | ignored | dropped => cases haccepted
  | @enqueued _ bytes' e _ _ _ _ _ hentry hframe hqueue _ =>
    obtain rfl : bytes' = bytes := Option.some.inj haccepted
    have hframed : call.Framed l.threadId bytes' := ⟨e, hentry, hframe⟩
    rw [← List.append_nil bytes'] at hqueue
    exact ⟨hframed.length_mem.1, hcapacity ▸ hframed.length_le hqueue⟩

/-- **Some literal fills the longest entry** of an empty queue. -/
theorem exists_longest (hq : l.queue.HasBytes [])
    (hlevel : ¬l.level.toByte < LogLevel.kInfo.toByte) (hrunning : running = true)
    (hroom : sizeofLogEntry ≤ l.queue.capacity.toNat) :
    ∃ (call : LogCall env) (result : LogResult) (bytes : List Byte),
      l.log running call = some result ∧ result.accepted = some bytes ∧
      bytes.length = largestEntry l.queue.capacity.toNat := by
  obtain ⟨message, hmessage⟩ : ∃ message : List Byte,
      sizeofLogEntry + message.length = largestEntry l.queue.capacity.toNat := by
    refine ⟨List.replicate (largestEntry l.queue.capacity.toNat - sizeofLogEntry) 0, ?_⟩
    rw [List.length_replicate, largestEntry, kMaxPayloadSize, sizeofLogEntry] at *
    omega
  have hshort : message.length < kMaxPayloadSize := by
    rw [largestEntry, kMaxPayloadSize, sizeofLogEntry] at hmessage
    rw [kMaxPayloadSize, sizeofLogEntry]
    omega
  have hpass : l.Passes running (.literal .kInfo message : LogCall env) := ⟨hlevel, hrunning⟩
  obtain ⟨result, bytes, hresult, hlaid⟩ := log_of_short hq hpass hshort
  obtain ⟨payload, hpayload, -, hlength⟩ := hlaid.framed.length_eq
  obtain rfl : message = payload := Option.some.inj hpayload
  rw [hmessage] at hlength
  refine ⟨_, result, bytes, hresult, ?_, hlength⟩
  rw [hlaid.accepted, if_pos]
  rw [List.length_nil, Nat.zero_add, hlength]
  exact Nat.min_le_right _ _

end InternalLogger

namespace LoggerSystem

variable {s s' : LoggerSystem env}

/-! ## Every run -/

/-- A step of the worker leaves the capacity of the queue. -/
theorem capacity_stepWorker {now : Size} (hs : s.stepWorker now = some s') :
    s'.logger.queue.capacity = s.logger.queue.capacity := by
  by_cases hpc : ∃ c payloadLen, s.worker = .dequeue c payloadLen
  · obtain ⟨c, payloadLen, hpc⟩ := hpc
    have hcapacity := s.logger.queue.capacity_dequeueBytes
      (BitVec.ofNat 64 (sizeofLogEntry + payloadLen.toNat))
    rw [stepWorker, hpc] at hs
    dsimp only at hs
    split at hs
    · rename_i hdequeue
      rw [hdequeue] at hcapacity
      split_ifs at hs
      rw [← Option.some.inj hs]
      exact hcapacity
    · rename_i hdequeue
      rw [hdequeue] at hcapacity
      rw [← Option.some.inj hs]
      exact hcapacity
  · rw [logger_stepWorker hs fun c payloadLen hc => hpc ⟨c, payloadLen, hc⟩]

/-- Every step leaves the capacity of the queue. -/
theorem capacity_step {a : Action env} (hs : s.step a = some s') :
    s'.logger.queue.capacity = s.logger.queue.capacity := by
  cases step_begins hs with
  | worker hs => exact capacity_stepWorker hs
  | frontend hs => rw [(stepFrontend_keeps hs).queue]
  | log _ hs =>
    obtain ⟨result, hresult, rfl⟩ := Option.map_eq_some_iff.mp hs
    exact InternalLogger.capacity_log hresult
  | flush _ => rw [s.beginFlush_keeps.queue]
  | startWorker _ hs =>
    rw [beginStart] at hs
    split_ifs at hs
    rw [← Option.some.inj hs]
  | stopWorker _ => rw [(s.beginStop_keeps false).queue]
  | setLevel _ => rfl

/-- **What the dequeue buffer promises** in a state: it takes every entry that a log call puts into
the queue, and the entry the worker is about to dequeue. -/
structure DequeuesFit (s : LoggerSystem env) : Prop where
  accepted : ∀ {call : LogCall env} {result : LogResult} {bytes : List Byte},
    s.logger.log s.running call = some result → result.accepted = some bytes →
    bytes.length ≤ s.backend.dequeueBuffer.length
  dequeued : ∀ {c : Caller} {payloadLen : BitVec 16}, s.worker = .dequeue c payloadLen →
    sizeofLogEntry + payloadLen.toNat ≤ s.backend.dequeueBuffer.length

/-- A buffer for the longest entry takes every entry. -/
theorem Tracked.dequeuesFit (h : s.Tracked)
    (hfits : s.logger.queue.capacity.toNat < sizeofLogEntry ∨
      largestEntry s.logger.queue.capacity.toNat ≤ s.backend.dequeueBuffer.length) :
    s.DequeuesFit := by
  obtain ⟨done, flying, waiting, frames, hflow⟩ := h.flow
  have hmem : ∀ {n : ℕ}, sizeofLogEntry ≤ n → n ≤ largestEntry s.logger.queue.capacity.toNat →
      n ≤ s.backend.dequeueBuffer.length := by
    intro n hlow hhigh
    rcases hfits with hsmall | hfits
    · rw [largestEntry] at hhigh
      omega
    · exact hhigh.trans hfits
  refine ⟨fun hlog haccepted => ?_, fun {c payloadLen} hpc => ?_⟩
  · obtain ⟨hlow, hhigh⟩ := InternalLogger.length_accepted_le hflow.queue hlog haccepted
    exact hmem hlow hhigh
  · obtain ⟨-, call, frame, waiting', frames', -, -, rfl, hframed, hlength, -, -⟩ :=
      hflow.dequeueBytes hpc
    have hqueue := hflow.queue
    rw [List.flatten_cons, ← List.nil_append (frame ++ _)] at hqueue
    exact hlength ▸ hmem hframed.length_mem.1 (hframed.length_le hqueue)

/-- A logger with sinks can be started. -/
theorem exists_started (env : Env) (threadId : BitVec 32) (options : FemtologOptions)
    (queue : SpscQueue) {sinks : ℕ} (hsinks : 0 < sinks) :
    ∃ s, Reaches step (fun _ _ => True) (initial env threadId options queue sinks) s ∧
      s.running = true ∧
      s.logger = (initial env threadId options queue sinks).logger ∧
      s.backend.dequeueBuffer = List.replicate options.backendDequeueBufferSize 0 := by
  have hstart : step (initial env threadId options queue sinks) .startWorker = some
      { initial env threadId options queue sinks with
        frontend := .starting, worker := .loadShutdown } := by
    have hassert : (initial env threadId options queue sinks).backend.status = .kIdling ∧
        (initial env threadId options queue sinks).backend.sinks ≠ [] :=
      ⟨rfl, List.ne_nil_of_length_pos (by rwa [initial, List.length_replicate])⟩
    have hbegin : (initial env threadId options queue sinks).beginStart = _ := if_pos hassert
    exact hbegin
  have hreturn : step { initial env threadId options queue sinks with
      frontend := .starting, worker := .loadShutdown } .frontend = some _ := rfl
  exact ⟨_, (Reaches.refl.tail trivial hstart).tail trivial hreturn, rfl, rfl, rfl⟩

/-- **The worker's buffer takes every accepted entry** exactly if it takes the longest one, or the
queue none. -/
theorem dequeues_fit_iff {mem : Allocator} {threadId : BitVec 32} {options : FemtologOptions}
    {queue : SpscQueue} {sinks : ℕ}
    (hqueue : SpscQueue.reserve mem options.spscQueueSize = some queue) (hsinks : 0 < sinks) :
    (∀ s, Reaches step (fun _ _ => True) (initial env threadId options queue sinks) s →
      s.DequeuesFit) ↔
      queue.capacity.toNat < sizeofLogEntry ∨
        largestEntry queue.capacity.toNat ≤ options.backendDequeueBufferSize := by
  have hempty := SpscQueue.hasBytes_of_reserve hqueue
  constructor
  · intro h
    obtain ⟨s, hrun, hrunning, hlogger, hbuffer⟩ :=
      exists_started env threadId options queue hsinks
    by_contra hlong
    rw [not_or, Nat.not_lt] at hlong
    have hlevel : ¬s.logger.level.toByte < LogLevel.kInfo.toByte := by
      rw [hlogger]
      exact (by decide : ¬LogLevel.kInfo.toByte < LogLevel.kInfo.toByte)
    have hqueue : s.logger.queue = queue := by rw [hlogger, initial]
    obtain ⟨call, result, bytes, hlog, haccepted, hbytes⟩ :=
      InternalLogger.exists_longest (hqueue ▸ hempty) hlevel hrunning (hqueue ▸ hlong.1)
    have hle := (h s hrun).accepted hlog haccepted
    rw [hbytes, hbuffer, List.length_replicate, hqueue] at hle
    exact hlong.2 hle
  · intro hfits s hrun
    obtain ⟨htracked, hbuilt⟩ := tracked_of_reaches (tracked_initial hempty) hrun
    have hcapacity : s.logger.queue.capacity = queue.capacity :=
      hrun.invariant (I := fun s => s.logger.queue.capacity = queue.capacity) rfl
        fun h _ hs => (capacity_step hs).trans h
    refine htracked.dequeuesFit ?_
    rwa [hcapacity, hbuilt.dequeueBuffer, initial, List.length_replicate]

/-- The worker of a logger with `kFastOptions` has room for every entry. -/
theorem dequeues_fit_fast : ∃ queue : SpscQueue,
    SpscQueue.reserve .zeroed kFastOptions.spscQueueSize = some queue ∧
    ∀ s, Reaches step (fun _ _ => True) (initial .wide 1#32 kFastOptions queue 1) s →
      s.DequeuesFit := by
  obtain ⟨queue, hqueue, hcapacity⟩ : ∃ queue, SpscQueue.reserve .zeroed 4194304#64 = some queue ∧
      queue.capacity = 4194304#64 := ⟨_, rfl, rfl⟩
  refine ⟨queue, hqueue, (dequeues_fit_iff hqueue Nat.one_pos).mpr (.inr ?_)⟩
  rw [hcapacity]
  decide

/-- **With `kMemorySavingOptions` a message of 489 bytes does not fit** — the worker is about to
dequeue 513 bytes into a buffer of 512. -/
theorem dequeues_unfit : ∃ (queue : SpscQueue) (s : LoggerSystem .wide),
    SpscQueue.reserve .zeroed kMemorySavingOptions.spscQueueSize = some queue ∧
    Reaches step (fun _ _ => True) (initial .wide 1#32 kMemorySavingOptions queue 1) s ∧
    s.worker = .dequeue .main 489#16 ∧ ¬s.DequeuesFit := by
  obtain ⟨s, hs, hpc⟩ : ∃ s, execute step (fun _ _ => true)
      (initial .wide 1#32 kMemorySavingOptions
        { buffer := some (List.replicate 1088 0), capacity := 1024#64, mask := 1023#64 } 1)
      [.startWorker, .frontend, .log (.literal .kInfo (List.replicate 489 0x61)),
        .worker 7#64, .worker 7#64, .worker 7#64, .worker 7#64]
      = some s ∧ (s.worker, s.backend.dequeueBuffer.length) = (.dequeue .main 489#16, 512) :=
    Option.map_eq_some_iff.mp (by decide +kernel)
  obtain ⟨hworker, hbuffer⟩ := Prod.mk.inj hpc
  refine ⟨_, s, rfl, Reaches.of_execute (fun _ => trivial) hs, hworker, fun hfits => ?_⟩
  have hle := hfits.dequeued hworker
  rw [hbuffer] at hle
  exact absurd hle (by decide)

end LoggerSystem

end Femtolog
