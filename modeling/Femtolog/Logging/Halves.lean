import Femtolog.Logging.Delivery

/-!
# Logging/Halves — the steps that use the queue, without their call on it

A log call lays its entry out, enqueues it, and counts it; `read_and_process_one` peeks, dequeues,
and goes on with what it got.  These are the halves before and after the call on the queue; nothing
else the two threads do looks at it (`step_withQueue`, `stepWorker_withQueue`).
-/

namespace Femtolog

variable {env : Env}

/-! ## The halves of a log call -/

namespace InternalLogger

/-- The logger with another queue. -/
def withQueue (l : InternalLogger) (queue : SpscQueue) : InternalLogger := { l with queue }

@[simp] theorem withQueue_level (l : InternalLogger) (queue : SpscQueue) :
    (l.withQueue queue).level = l.level := rfl

/-- What `log` does before it enqueues: it returns, or an entry lies in `entry_buffer_`. -/
def prepare (l : InternalLogger) (running : Bool) (call : LogCall env) :
    Option (LogResult ⊕ InternalLogger) :=
  if l.level.toByte < call.level.toByte then some (.inl ⟨l, none, false⟩)
  else if !running then some (.inl ⟨l, none, false⟩)
  else if call.args = [] then
    some <|
      if h : kMaxPayloadSize ≤ call.fmt.length then .inl l.drop
      else .inr (l.createEntry kLiteralLogStringId call.level call.fmt (Nat.lt_of_not_le h))
  else
    (serialize call.refMode call.mem call.header l.serializer call.args).map fun serialized =>
      let l := { l with serializer := serialized }
      if h : kMaxPayloadSize ≤ serialized.size.toNat ∨ serialized.size = 0#64 then .inl l.drop
      else .inr (l.createEntry (getStringId call.fmt) call.level serialized.bytes
        (lt_of_le_of_lt (List.length_take_le _ _) (Nat.lt_of_not_le fun hle => h (.inl hle))))

/-- The bytes of the entry in `entry_buffer_`. -/
def entryBytes (l : InternalLogger) : List Byte :=
  l.entryBuffer.take (LogEntry.parse l.entryBuffer).totalSize

/-- What `enqueue_log_entry` does when `enqueue_bytes` has returned `status`. -/
def conclude (l : InternalLogger) (status : QueueStatus) : LogResult :=
  let terminate := decide ((LogEntry.parse l.entryBuffer).level = .kFatal) && l.terminateOnFatal
  if status = .kOk then
    ⟨{ l with enqueuedCount := l.enqueuedCount + 1#64 }, some l.entryBytes, terminate⟩
  else ⟨{ l with droppedCount := l.droppedCount + 1#64 }, none, terminate⟩

/-- **A log call is its two halves**, with the enqueue between them. -/
theorem log_eq (l : InternalLogger) (running : Bool) (call : LogCall env) :
    l.log running call = (l.prepare running call).map (Sum.elim id fun l' =>
      (l'.withQueue (l'.queue.enqueueBytes l'.entryBytes).2).conclude
        (l'.queue.enqueueBytes l'.entryBytes).1) := by
  rw [log, prepare]
  split_ifs with hlevel hrunning hargs hlong
  · rfl
  · rfl
  · rw [logLiteral, dif_pos hlong]
    rfl
  · rw [logLiteral, dif_neg hlong]
    rfl
  · rw [Option.map_map]
    refine congrArg (Option.map · _) (funext fun serialized => ?_)
    rw [logSerialized, Function.comp_apply]
    split_ifs <;> rfl

/-- The first half leaves the queue alone. -/
theorem prepare_withQueue (l : InternalLogger) (queue : SpscQueue) (running : Bool)
    (call : LogCall env) :
    (l.withQueue queue).prepare running call = (l.prepare running call).map
      (Sum.map (fun result => { result with logger := result.logger.withQueue queue })
        (withQueue · queue)) := by
  rw [prepare, prepare, withQueue_level]
  split_ifs with hlevel hrunning hargs hlong
  · rfl
  · rfl
  · rfl
  · rfl
  · rw [Option.map_map]
    refine congrArg (Option.map · _) (funext fun serialized => ?_)
    rw [Function.comp_apply]
    split_ifs <;> rfl

theorem length_entryBytes_lt (l : InternalLogger) : l.entryBytes.length < 2 ^ 64 := by
  have hle : l.entryBytes.length ≤ l.entryBuffer.length := List.length_take_le' _ _
  rw [l.length_entryBuffer, sizeofLogEntry, kMaxPayloadSize] at hle
  omega

end InternalLogger

/-! ## The rest of a step -/

/-- The call on the queue the worker is in or about to begin. -/
def WorkerPc.call : WorkerPc → Option Call
  | .peek _ => some (.peekBytes 2#64)
  | .dequeue _ payloadLen =>
    some (.dequeueBytes (BitVec.ofNat 64 (sizeofLogEntry + payloadLen.toNat)))
  | _ => none

/-- The worker peeks and dequeues. -/
theorem WorkerPc.isDequeue_of_call {pc : WorkerPc} {call : Call} (h : pc.call = some call) :
    call.Valid ∧ (call.IsDequeue ∨ ∃ n, call = .peekBytes n) := by
  cases pc with
  | peek =>
    obtain rfl := Option.some.inj h
    exact ⟨trivial, .inr ⟨_, rfl⟩⟩
  | dequeue =>
    obtain rfl := Option.some.inj h
    exact ⟨trivial, .inl trivial⟩
  | _ => cases h

/-- What the frontend does besides logging. -/
def Action.IsPlain : Action env → Prop
  | .log _ | .worker _ => False
  | _ => True

namespace LoggerSystem

/-- The system with another queue. -/
def withQueue (s : LoggerSystem env) (queue : SpscQueue) : LoggerSystem env :=
  { s with logger := s.logger.withQueue queue }

@[simp] theorem withQueue_worker (s : LoggerSystem env) (queue : SpscQueue) :
    (s.withQueue queue).worker = s.worker := rfl

/-- `read_and_process_one` after `peek_bytes`. -/
def peeked (s : LoggerSystem env) (r : Caller) : QueueStatus → List Byte → LoggerSystem env
  | .kOk, bytes => { s with worker := .dequeue r (BitVec.ofNat 16 (ofBytesLE bytes)) }
  | _, _ => { s with worker := r.failed }

/-- `read_and_process_one` after `dequeue_bytes`. -/
def dequeued (s : LoggerSystem env) (r : Caller) :
    QueueStatus → List Byte → Option (LoggerSystem env)
  | .kOk, bytes =>
    if bytes.length ≤ s.backend.dequeueBuffer.length then
      some { s with
        backend := { s.backend with dequeueBuffer := splice s.backend.dequeueBuffer 0 bytes }
        worker := .process r }
    else none  -- past the end of `dequeue_buffer_`
  | _, _ => some { s with worker := r.failed }

/-- The worker goes on with the reply to its call on the queue. -/
def resumes (s : LoggerSystem env) (reply : Option Reply) : Option (LoggerSystem env) :=
  match s.worker, reply with
  | .peek r, some (.status status bytes) => some (s.peeked r status bytes)
  | .dequeue r _, some (.status status bytes) => s.dequeued r status bytes
  | _, _ => none

/-- The end of a log call. -/
def concludes (s : LoggerSystem env) (call : LogCall env) (result : LogResult) :
    LoggerSystem env :=
  { s with
    logger := result.logger
    accepted := if result.accepted.isSome then s.accepted ++ [call] else s.accepted
    frontend := if result.terminate then .stopping else .idle }

variable {s s' : LoggerSystem env} {now : Size} {queue : SpscQueue}

theorem resumes_peek {r : Caller} (h : s.worker = .peek r) (status : QueueStatus)
    (bytes : List Byte) :
    s.resumes (some (.status status bytes)) = some (s.peeked r status bytes) := by
  simp only [resumes, h]

theorem resumes_dequeue {r : Caller} {payloadLen : BitVec 16} (h : s.worker = .dequeue r payloadLen)
    (status : QueueStatus) (bytes : List Byte) :
    s.resumes (some (.status status bytes)) = s.dequeued r status bytes := by
  simp only [resumes, h]

/-- **A step of the worker is its call on the queue, and the rest.** -/
theorem stepWorker_of_call {call : Call} (h : s.worker.call = some call) (now : Size) :
    s.stepWorker now = (s.withQueue (s.logger.queue.call call).2).resumes
      (some (s.logger.queue.call call).1) := by
  cases hpc : s.worker with
  | peek r =>
    rw [hpc] at h
    obtain rfl := Option.some.inj h
    dsimp only [SpscQueue.call]
    rw [resumes_peek ((s.withQueue_worker _).trans hpc), stepWorker, hpc]
    dsimp only
    obtain ⟨status, bytes⟩ := s.logger.queue.peekBytes 2#64
    cases status <;> rfl
  | dequeue r payloadLen =>
    rw [hpc] at h
    obtain rfl := Option.some.inj h
    dsimp only [SpscQueue.call]
    rw [resumes_dequeue ((s.withQueue_worker _).trans hpc), stepWorker, hpc]
    dsimp only
    obtain ⟨status, bytes, queue⟩ := s.logger.queue.dequeueBytes _
    cases status <;> rfl
  | _ =>
    rw [hpc] at h
    cases h

/-! ### What does not look at the queue -/

theorem peeked_withQueue (s : LoggerSystem env) (queue : SpscQueue) (r : Caller)
    (status : QueueStatus) (bytes : List Byte) :
    (s.withQueue queue).peeked r status bytes = (s.peeked r status bytes).withQueue queue := by
  cases status <;> rfl

theorem dequeued_withQueue (s : LoggerSystem env) (queue : SpscQueue) (r : Caller)
    (status : QueueStatus) (bytes : List Byte) : (s.withQueue queue).dequeued r status bytes
      = (s.dequeued r status bytes).map (withQueue · queue) := by
  cases status with
  | kOk =>
    rw [dequeued, dequeued, apply_ite (Option.map _)]
    rfl
  | _ => rfl

theorem resumes_withQueue (s : LoggerSystem env) (queue : SpscQueue) (reply : Option Reply) :
    (s.withQueue queue).resumes reply = (s.resumes reply).map (withQueue · queue) := by
  rcases reply with _ | ⟨status, bytes⟩ | _ | _
  case some.status =>
    cases hpc : s.worker with
    | peek r =>
      rw [resumes_peek hpc, resumes_peek ((s.withQueue_worker queue).trans hpc), peeked_withQueue]
      rfl
    | dequeue r payloadLen =>
      rw [resumes_dequeue hpc, resumes_dequeue ((s.withQueue_worker queue).trans hpc),
        dequeued_withQueue]
    | _ => simp only [resumes, withQueue_worker, hpc, Option.map_none]
  all_goals simp [resumes]

/-- Between its calls on the queue the worker does not look at it. -/
theorem stepWorker_withQueue (h : s.worker.call = none) (queue : SpscQueue) (now : Size) :
    (s.withQueue queue).stepWorker now = (s.stepWorker now).map (withQueue · queue) := by
  cases hpc : s.worker with
  | peek | dequeue =>
    rw [hpc] at h
    cases h
  | process =>
    simp only [stepWorker, withQueue_worker, hpc, Option.map_map]
    rfl
  | _ =>
    simp only [stepWorker, withQueue_worker, hpc]
    rfl

theorem beginFlush_withQueue (s : LoggerSystem env) (queue : SpscQueue) :
    (s.withQueue queue).beginFlush = s.beginFlush.withQueue queue := by
  rw [beginFlush, beginFlush]
  change ite (s.running = true) _ _ = _
  split_ifs <;> rfl

theorem beginStop_withQueue (s : LoggerSystem env) (queue : SpscQueue) (terminate : Bool) :
    (s.withQueue queue).beginStop terminate = (s.beginStop terminate).withQueue queue := by
  rw [beginStop, beginStop]
  change ite (s.running = true) _ _ = _
  split_ifs <;> rfl

theorem beginStart_withQueue (s : LoggerSystem env) (queue : SpscQueue) :
    (s.withQueue queue).beginStart = s.beginStart.map (withQueue · queue) := by
  rw [beginStart, beginStart, apply_ite (Option.map _)]
  rfl

theorem stepFrontend_withQueue (s : LoggerSystem env) (queue : SpscQueue) :
    (s.withQueue queue).stepFrontend = s.stepFrontend.map (withQueue · queue) := by
  have hfrontend : (s.withQueue queue).frontend = s.frontend := rfl
  cases hpc : s.frontend with
  | flushing seq =>
    simp only [stepFrontend, hfrontend, hpc, apply_ite (Option.map _)]
    rfl
  | joining terminate =>
    simp only [stepFrontend, hfrontend, hpc, apply_ite (Option.map _)]
    rfl
  | stopping => simp only [stepFrontend, hfrontend, hpc, beginStop_withQueue, Option.map_some]
  | _ =>
    simp only [stepFrontend, hfrontend, hpc]
    rfl

/-- **The frontend looks at the queue to log**, and for nothing else. -/
theorem step_withQueue (s : LoggerSystem env) (queue : SpscQueue) {a : Action env}
    (ha : a.IsPlain) : (s.withQueue queue).step a = (s.step a).map (withQueue · queue) := by
  cases a with
  | log | worker => cases ha
  | frontend => exact s.stepFrontend_withQueue queue
  | flush =>
    rw [step, step, apply_ite (Option.map _), beginFlush_withQueue]
    rfl
  | stopWorker =>
    rw [step, step, apply_ite (Option.map _), beginStop_withQueue]
    rfl
  | startWorker =>
    rw [step, step, apply_ite (Option.map _), beginStart_withQueue]
    rfl
  | setLevel level =>
    rw [step, step, apply_ite (Option.map _)]
    rfl

/-- The second half of a log call does not look at the queue either. -/
theorem conclude_withQueue (l : InternalLogger) (queue : SpscQueue) (status : QueueStatus) :
    (l.withQueue queue).conclude status
      = { l.conclude status with logger := (l.conclude status).logger.withQueue queue } := by
  rw [InternalLogger.conclude, InternalLogger.conclude]
  split_ifs <;> rfl

/-- **A log call in the system is its two halves**, with the enqueue between them. -/
theorem beginLog_withQueue (s : LoggerSystem env) (queue : SpscQueue) (call : LogCall env) :
    (s.withQueue queue).beginLog call = (s.logger.prepare s.running call).map (Sum.elim
      (fun result => (s.concludes call result).withQueue queue) fun l =>
        (s.concludes call (l.conclude (queue.enqueueBytes l.entryBytes).1)).withQueue
          (queue.enqueueBytes l.entryBytes).2) := by
  rw [beginLog]
  change Option.map _ ((s.logger.withQueue queue).log s.running call) = _
  rw [InternalLogger.log_eq, InternalLogger.prepare_withQueue, Option.map_map, Option.map_map]
  refine congrArg (Option.map · _) (funext fun x => ?_)
  cases x with
  | inl result => rfl
  | inr l =>
    change (s.withQueue queue).concludes call
      ((l.withQueue (queue.enqueueBytes l.entryBytes).2).conclude
        (queue.enqueueBytes l.entryBytes).1) = _
    rw [conclude_withQueue]
    rfl

/-- What the worker leaves to the frontend. -/
structure Quiet (s s' : LoggerSystem env) : Prop where
  logger : s'.logger = s.logger
  frontend : s'.frontend = s.frontend
  running : s'.running = s.running

theorem quiet_of_resumes {reply : Option Reply} (h : s.resumes reply = some s') : s.Quiet s' := by
  unfold resumes at h
  split at h
  case h_1 r status bytes _ =>
    obtain rfl := Option.some.inj h
    cases status <;> exact ⟨rfl, rfl, rfl⟩
  case h_2 r payloadLen status bytes _ =>
    cases status with
    | kOk =>
      rw [dequeued] at h
      split_ifs at h
      obtain rfl := Option.some.inj h
      exact ⟨rfl, rfl, rfl⟩
    | _ =>
      obtain rfl := Option.some.inj h
      exact ⟨rfl, rfl, rfl⟩
  case h_3 => cases h

theorem quiet_of_stepWorker (hcall : s.worker.call = none) (h : s.stepWorker now = some s') :
    s.Quiet s' := by
  rw [stepWorker] at h
  cases hpc : s.worker with
  | unstarted | exited =>
    rw [hpc] at h
    cases h
  | peek | dequeue =>
    rw [hpc] at hcall
    cases hcall
  | process =>
    rw [hpc] at h
    obtain ⟨_, -, rfl⟩ := Option.map_eq_some_iff.mp h
    exact ⟨rfl, rfl, rfl⟩
  | _ =>
    rw [hpc] at h
    obtain rfl := Option.some.inj h
    exact ⟨rfl, rfl, rfl⟩

/-- Only a start moves the worker, one that idles. -/
theorem worker_of_plain {a : Action env} (ha : a.IsPlain) (h : s.step a = some s') :
    s'.worker = s.worker ∨ s.backend.status = .kIdling ∧ s.frontend = .idle := by
  cases step_begins h with
  | worker | log => cases ha
  | frontend hs => exact .inl (stepFrontend_keeps hs).worker
  | flush _ => exact .inl s.beginFlush_keeps.worker
  | startWorker hidle hs =>
    rw [beginStart] at hs
    split_ifs at hs with hassert
    exact .inr ⟨hassert.1, hidle⟩
  | stopWorker _ => exact .inl (s.beginStop_keeps false).worker
  | setLevel _ => exact .inl rfl

end LoggerSystem

end Femtolog
