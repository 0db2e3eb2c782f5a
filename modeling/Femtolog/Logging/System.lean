import Femtolog.Foundations.Runs
import Femtolog.Logging.InternalLogger

/-!
# Logging/System — a logger with its worker thread

One frontend thread calls the logger; the worker thread runs `run_loop`.  They share the queue,
`shutdown_required_` and the two flush sequence numbers.  A step is one access to what they share,
with the private work around it; a call on the queue is one step, as `Queue/SpscRun` allows: its
steps can be taken together.

The step of a thread is undefined where its code is: where a thread has nothing to do, where a
message leaves its buffer, or where a precondition that the code only asserts does not hold.
-/

namespace Femtolog

/-! ## State -/

/-- The members of `FemtologOptions` that decide what is logged. -/
structure FemtologOptions where
  spscQueueSize : Size := 8192#64
  backendFormatBufferSize : ℕ := 2048
  backendDequeueBufferSize : ℕ := 4096
  terminateOnFatal : Bool := false

/-- `kFastOptions`. -/
def kFastOptions : FemtologOptions where
  spscQueueSize := 4194304#64
  backendFormatBufferSize := 65536
  backendDequeueBufferSize := 65536

/-- `kMemorySavingOptions`. -/
def kMemorySavingOptions : FemtologOptions where
  spscQueueSize := 1024#64
  backendFormatBufferSize := 256
  backendDequeueBufferSize := 512

/-- `BackendWorkerStatus`. -/
inductive BackendWorkerStatus
  | kUninitialized
  | kIdling
  | kRunning
  | kUnknown
  deriving DecidableEq

/-- Who called `read_and_process_one`: `flush_impl` for the request `req`, the main loop, or
`flush_impl` after it. -/
inductive Caller
  | flush (req : Size)
  | main
  | drain
  deriving DecidableEq

/-- Where the worker thread is. -/
inductive WorkerPc
  | unstarted
  | loadShutdown
  | loadRequested
  | loadCompleted (req : Size)
  | peek (r : Caller)
  | dequeue (r : Caller) (payloadLen : BitVec 16)
  | process (r : Caller)
  | storeCompleted (req : Size)
  | drained
  | storeFinal (req : Size)
  | exited
  deriving DecidableEq

/-- After a `read_and_process_one` that returned `false`. -/
def Caller.failed : Caller → WorkerPc
  | .flush req => .storeCompleted req
  | .main => .loadShutdown
  | .drain => .drained

/-- After a `read_and_process_one` that returned `true`. -/
def Caller.succeeded : Caller → WorkerPc
  | .flush req => .peek (.flush req)
  | .main => .loadShutdown
  | .drain => .peek .drain

/-- Where the frontend thread is: between calls, in `start`, in `flush` waiting for `seq`, about to
call `stop` after a fatal message, joining the worker in `stop`, or in `std::terminate`. -/
inductive FrontendPc
  | idle
  | starting
  | flushing (seq : Size)
  | stopping
  | joining (terminate : Bool)
  | terminated
  deriving DecidableEq

/-- The members of `BackendWorker`; a sink is the list of its `on_log` calls. -/
structure BackendWorker where
  status : BackendWorkerStatus
  shutdownRequired : Bool
  flushRequestedSeq : Size
  flushCompletedSeq : Size
  dequeueBuffer : List Byte
  formatBuffer : List Byte
  sinks : List (List OnLog)

/-- A logger, its worker and where their threads are.  `accepted` and `marks` are for the reader:
the calls whose messages went into the queue, and how many those were at each flush request. -/
structure LoggerSystem (env : Env) where
  logger : InternalLogger
  backend : BackendWorker
  frontend : FrontendPc
  worker : WorkerPc
  accepted : List (LogCall env)
  marks : List ℕ

/-- What happens next: a call of the frontend begins, a thread takes a step. -/
inductive Action (env : Env)
  | log (call : LogCall env)
  | flush
  | startWorker
  | stopWorker
  | setLevel (level : LogLevel)
  | frontend
  | worker (now : Size)

namespace LoggerSystem

variable {env : Env}

/-- A logger after its construction, `init` and `register_sink`; `queue` is what `reserve` made. -/
def initial (env : Env) (threadId : BitVec 32) (options : FemtologOptions) (queue : SpscQueue)
    (sinks : ℕ) : LoggerSystem env where
  logger :=
    { level := .kInfo
      threadId
      enqueuedCount := 0#64
      droppedCount := 0#64
      serializer := .zeroed 2048#64
      queue
      entryBuffer := List.replicate (sizeofLogEntry + kMaxPayloadSize) 0
      terminateOnFatal := options.terminateOnFatal
      length_entryBuffer := List.length_replicate }
  backend :=
    { status := .kIdling
      shutdownRequired := false
      flushRequestedSeq := 0#64
      flushCompletedSeq := 0#64
      dequeueBuffer := List.replicate options.backendDequeueBufferSize 0
      formatBuffer := env.formatBuffer options.backendFormatBufferSize
      sinks := List.replicate sinks [] }
  frontend := .idle
  worker := .unstarted
  accepted := []
  marks := []

/-! ## The worker -/

/-- A step of `run_loop`, at the time `now`. -/
def stepWorker (s : LoggerSystem env) (now : Size) : Option (LoggerSystem env) :=
  match s.worker with
  | .unstarted | .exited => none
  | .loadShutdown =>
    some { s with worker := if s.backend.shutdownRequired then .peek .drain else .loadRequested }
  | .loadRequested => some { s with worker := .loadCompleted s.backend.flushRequestedSeq }
  | .loadCompleted req =>
    let done := s.backend.flushCompletedSeq
    some { s with worker := .peek (if done < req then .flush req else .main) }
  | .peek r =>
    match s.logger.queue.peekBytes 2#64 with
    | (.kOk, bytes) => some { s with worker := .dequeue r (BitVec.ofNat 16 (ofBytesLE bytes)) }
    | _ => some { s with worker := r.failed }
  | .dequeue r payloadLen =>
    let totalSize := BitVec.ofNat 64 (sizeofLogEntry + payloadLen.toNat)
    match s.logger.queue.dequeueBytes totalSize with
    | (.kOk, bytes, queue) =>
      if bytes.length ≤ s.backend.dequeueBuffer.length then
        some { s with
          logger := { s.logger with queue }
          backend := { s.backend with dequeueBuffer := splice s.backend.dequeueBuffer 0 bytes }
          worker := .process r }
      else none  -- past the end of `dequeue_buffer_`
    | (_, _, queue) => some { s with logger := { s.logger with queue }, worker := r.failed }
  | .process r =>
    (processLogEntry env now s.backend.formatBuffer s.backend.dequeueBuffer).map fun result =>
      { s with
        backend := { s.backend with
          formatBuffer := result.1
          sinks := s.backend.sinks.map (· ++ result.2.toList) }
        worker := r.succeeded }
  | .storeCompleted req =>
    some { s with backend := { s.backend with flushCompletedSeq := req }, worker := .peek .main }
  | .drained => some { s with worker := .storeFinal s.backend.flushRequestedSeq }
  | .storeFinal req =>
    some { s with backend := { s.backend with flushCompletedSeq := req }, worker := .exited }

/-! ## The frontend -/

/-- The worker has been started and not been stopped. -/
def running (s : LoggerSystem env) : Bool := decide (s.backend.status = .kRunning)

/-- The start of a call of `log`; what it does before it enqueues concerns the frontend alone. -/
def beginLog (s : LoggerSystem env) (call : LogCall env) : Option (LoggerSystem env) :=
  (s.logger.log s.running call).map fun result =>
    { s with
      logger := result.logger
      accepted := if result.accepted.isSome then s.accepted ++ [call] else s.accepted
      frontend := if result.terminate then .stopping else .idle }

/-- The start of `flush`. -/
def beginFlush (s : LoggerSystem env) : LoggerSystem env :=
  if s.running then
    let seq := s.backend.flushRequestedSeq + 1#64
    { s with
      backend := { s.backend with flushRequestedSeq := seq }
      frontend := .flushing seq
      marks := s.marks ++ [s.accepted.length] }
  else s

/-- The start of `start_worker`, which asserts that the worker idles and that there are sinks. -/
def beginStart (s : LoggerSystem env) : Option (LoggerSystem env) :=
  if s.backend.status = .kIdling ∧ s.backend.sinks ≠ [] then
    some { s with frontend := .starting, worker := .loadShutdown }
  else none

/-- The start of `stop`. -/
def beginStop (s : LoggerSystem env) (terminate : Bool) : LoggerSystem env :=
  if s.running then
    { s with
      backend := { s.backend with shutdownRequired := true }
      frontend := .joining terminate }
  else { s with frontend := if terminate then .terminated else .idle }

/-- A step of the call the frontend is in. -/
def stepFrontend (s : LoggerSystem env) : Option (LoggerSystem env) :=
  match s.frontend with
  | .idle | .terminated => none
  | .starting =>
    some { s with backend := { s.backend with status := .kRunning }, frontend := .idle }
  | .flushing seq =>
    if s.backend.flushCompletedSeq < seq then some s else some { s with frontend := .idle }
  | .stopping => some (s.beginStop true)
  | .joining terminate =>
    if s.worker = .exited then
      some { s with
        backend := { s.backend with status := .kIdling }
        frontend := if terminate then .terminated else .idle }
    else none

/-! ## The system -/

/-- One step of the system.  A call begins between calls. -/
def step (s : LoggerSystem env) : Action env → Option (LoggerSystem env)
  | .frontend => s.stepFrontend
  | .worker now => s.stepWorker now
  | .log call => if s.frontend = .idle then s.beginLog call else none
  | .flush => if s.frontend = .idle then some s.beginFlush else none
  | .startWorker => if s.frontend = .idle then s.beginStart else none
  | .stopWorker => if s.frontend = .idle then some (s.beginStop false) else none
  | .setLevel level =>
    if s.frontend = .idle then some { s with logger := { s.logger with level } } else none

/-- What a step is a step of. -/
inductive Begins (s : LoggerSystem env) : Action env → LoggerSystem env → Prop
  | frontend {s' : LoggerSystem env} (h : s.stepFrontend = some s') : Begins s .frontend s'
  | worker {now : Size} {s' : LoggerSystem env} (h : s.stepWorker now = some s') :
    Begins s (.worker now) s'
  | log {call : LogCall env} {s' : LoggerSystem env} (hidle : s.frontend = .idle)
    (h : s.beginLog call = some s') : Begins s (.log call) s'
  | flush (hidle : s.frontend = .idle) : Begins s .flush s.beginFlush
  | startWorker {s' : LoggerSystem env} (hidle : s.frontend = .idle) (h : s.beginStart = some s') :
    Begins s .startWorker s'
  | stopWorker (hidle : s.frontend = .idle) : Begins s .stopWorker (s.beginStop false)
  | setLevel {level : LogLevel} (hidle : s.frontend = .idle) :
    Begins s (.setLevel level) { s with logger := { s.logger with level } }

/-- Calls begin between calls. -/
theorem step_begins {s s' : LoggerSystem env} {a : Action env} (h : s.step a = some s') :
    s.Begins a s' := by
  cases a with
  | frontend => exact .frontend h
  | worker now => exact .worker h
  | log call =>
    rw [step] at h
    split_ifs at h with hidle
    exact .log hidle h
  | flush =>
    rw [step] at h
    split_ifs at h with hidle
    exact Option.some.inj h ▸ .flush hidle
  | startWorker =>
    rw [step] at h
    split_ifs at h with hidle
    exact .startWorker hidle h
  | stopWorker =>
    rw [step] at h
    split_ifs at h with hidle
    exact Option.some.inj h ▸ .stopWorker hidle
  | setLevel level =>
    rw [step] at h
    split_ifs at h with hidle
    exact Option.some.inj h ▸ .setLevel hidle

end LoggerSystem

end Femtolog
