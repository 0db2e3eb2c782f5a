import Femtolog.Logging.Rounds

/-!
# Logging/Reinit — what a repeated `init` does to the messages

`InternalLogger::init` reserves the queue anew on every call, and initializes the worker on the
first one only.  A run of the logger from its construction on, with `init` called any number of
times between the worker's iterations, keeps every accepted message (`Conserved`) as long as each
`init` finds the queue empty; one that does not loses what was in it (`conserved_of_reaches`).
-/

namespace Femtolog

variable {env : Env}

/-! ## The code -/

/-- `BackendWorker::init`. -/
def BackendWorker.init (b : BackendWorker) (env : Env) (options : FemtologOptions) :
    BackendWorker :=
  { b with
    status := .kIdling
    dequeueBuffer := b.dequeueBuffer.takeD options.backendDequeueBufferSize 0
    formatBuffer := env.formatBuffer options.backendFormatBufferSize }

/-- The worker thread is between two iterations of the main loop, or there is no worker thread. -/
def WorkerPc.BetweenIterations : WorkerPc → Prop
  | .unstarted | .loadShutdown | .exited => True
  | _ => False

instance : DecidablePred WorkerPc.BetweenIterations := fun pc => by
  cases pc <;> first | exact .isTrue trivial | exact .isFalse id

theorem WorkerPc.BetweenIterations.plain {pc : WorkerPc} (h : pc.BetweenIterations) :
    pc.Plain := by
  cases pc <;> first | exact h | trivial

/-- What happens next to a logger that may be set up anew: `init` is called, with what `mem` has to
offer; `register_sink` is called; or anything else. -/
inductive SetupAction (env : Env)
  | init (mem : Allocator) (options : FemtologOptions)
  | registerSink
  | other (a : Action env)

/-- `entry_buffer_` has room for the largest entry. -/
theorem length_blankEntry : (List.replicate (sizeofLogEntry + kMaxPayloadSize) (0 : Byte)).length
    = sizeofLogEntry + kMaxPayloadSize := List.length_replicate

namespace LoggerSystem

/-- A logger after its construction. -/
def constructed (env : Env) (threadId : BitVec 32) : LoggerSystem env where
  logger :=
    { level := .kInfo
      threadId
      enqueuedCount := 0#64
      droppedCount := 0#64
      serializer := .zeroed 2048#64
      queue := {}
      entryBuffer := List.replicate (sizeofLogEntry + kMaxPayloadSize) 0
      terminateOnFatal := true
      length_entryBuffer := length_blankEntry }
  backend :=
    { status := .kUninitialized
      shutdownRequired := false
      flushRequestedSeq := 0#64
      flushCompletedSeq := 0#64
      dequeueBuffer := []
      formatBuffer := env.formatBuffer 0
      sinks := [] }
  frontend := .idle
  worker := .unstarted
  accepted := []
  marks := []

/-- `InternalLogger::init`.  Its checks of the sizes are left out, as a build without checks goes on
with any options. -/
def init (s : LoggerSystem env) (mem : Allocator) (options : FemtologOptions) :
    Option (LoggerSystem env) :=
  (SpscQueue.reserve mem options.spscQueueSize).map fun queue =>
    { s with
      logger := { s.logger with queue, terminateOnFatal := options.terminateOnFatal }
      backend :=
        if s.backend.status = .kUninitialized then s.backend.init env options else s.backend }

/-- `register_sink`, which asserts that the worker idles. -/
def registerSink (s : LoggerSystem env) : Option (LoggerSystem env) :=
  if s.backend.status = .kIdling then
    some { s with backend := { s.backend with sinks := s.backend.sinks ++ [[]] } }
  else none

/-- One step of a logger that may be set up anew.  A call of `init` meets no iteration of the worker
half done. -/
def stepSetup (s : LoggerSystem env) : SetupAction env → Option (LoggerSystem env)
  | .init mem options =>
    if s.frontend = .idle ∧ s.worker.BetweenIterations then s.init mem options else none
  | .registerSink => if s.frontend = .idle then s.registerSink else none
  | .other a => s.step a

/-- **The first `init`**, with `register_sink` after it, makes the logger the runs of `step` start
from. -/
theorem init_constructed {threadId : BitVec 32} {mem : Allocator} {options : FemtologOptions}
    {queue : SpscQueue} (hqueue : SpscQueue.reserve mem options.spscQueueSize = some queue) :
    (constructed env threadId).init mem options = some (initial env threadId options queue 0) := by
  rw [init, hqueue, Option.map_some]
  simp [constructed, initial, BackendWorker.init]

theorem registerSink_initial {threadId : BitVec 32} {options : FemtologOptions}
    {queue : SpscQueue} (sinks : ℕ) :
    (initial env threadId options queue sinks).registerSink
      = some (initial env threadId options queue (sinks + 1)) := by
  simp [registerSink, initial, List.replicate_succ']

end LoggerSystem

/-! ## Reading the queue -/

/-- **What can still be read from a queue**: a peek finds the length of an entry, the dequeue of
that many bytes returns the entry of the call, and so on until a peek finds nothing. -/
inductive Unread (threadId : BitVec 32) : SpscQueue → List (LogCall env) → Prop
  | nil {queue : SpscQueue} (hpeek : (queue.peekBytes 2#64).1 ≠ .kOk) : Unread threadId queue []
  | cons {queue queue' : SpscQueue} {call : LogCall env} {calls : List (LogCall env)}
    {lenBytes bytes : List Byte} (hpeek : queue.peekBytes 2#64 = (.kOk, lenBytes))
    (hdequeue : queue.dequeueBytes
      (BitVec.ofNat 64 (sizeofLogEntry + (BitVec.ofNat 16 (ofBytesLE lenBytes)).toNat))
        = (.kOk, bytes, queue'))
    (hframed : call.Framed threadId bytes) (hrest : Unread threadId queue' calls) :
    Unread threadId queue (call :: calls)

/-- Frames are read one by one. -/
theorem unread_of_hasBytes {threadId : BitVec 32} {calls : List (LogCall env)}
    {frames : List (List Byte)} (h : List.Forall₂ (LogCall.Framed threadId) calls frames)
    {queue : SpscQueue} (hqueue : queue.HasBytes frames.flatten) :
    Unread threadId queue calls := by
  induction h generalizing queue with
  | nil =>
    refine .nil fun hok => ?_
    have hlong := ((hqueue.peekBytes (show (2#64 : Size) ≠ 0#64 by decide)).1 hok).2
    simp at hlong
  | cons hframed _ ih =>
    rw [List.flatten_cons] at hqueue
    obtain ⟨hok, hlength⟩ := hframed.peekBytes hqueue
    obtain ⟨queue', hdequeue, hrest⟩ := hqueue.dequeueEntry hlength
    exact .cons (Prod.ext hok rfl) hdequeue hframed (ih hrest)

/-- Nothing is read from an empty queue. -/
theorem Unread.eq_nil {threadId : BitVec 32} {queue : SpscQueue} {calls : List (LogCall env)}
    (h : Unread threadId queue calls) (hqueue : queue.HasBytes []) : calls = [] := by
  cases h with
  | nil => rfl
  | cons hpeek _ _ _ =>
    have hlong := ((hqueue.peekBytes (show (2#64 : Size) ≠ 0#64 by decide)).1
      (congrArg Prod.fst hpeek)).2
    simp at hlong

namespace LoggerSystem

variable {s s' : LoggerSystem env}

/-! ## Conservation -/

/-- **All that was counted is somewhere**: `done` has been handed to every sink, and `waiting` can
be read from the queue. -/
structure ConservedAs (s : LoggerSystem env) (done waiting : List (LogCall env)) : Prop where
  accepted : s.accepted = done ++ waiting
  counted : s.logger.enqueuedCount = BitVec.ofNat 64 s.accepted.length
  handed : ∀ sink ∈ s.backend.sinks, List.Forall₂ (LogCall.Handed s.logger.threadId) done sink
  unread : Unread s.logger.threadId s.logger.queue waiting

/-- No counted message is lost. -/
def Conserved (s : LoggerSystem env) : Prop := ∃ done waiting, s.ConservedAs done waiting

/-- Sinks are registered before the worker is first started. -/
def SinksFirst (s : LoggerSystem env) : SetupAction env → Prop
  | .registerSink => s.worker = .unstarted
  | _ => True

/-- Besides, `init` finds the queue empty. -/
def EmptyInits (s : LoggerSystem env) : SetupAction env → Prop
  | .init _ _ => s.logger.queue.empty = true
  | a => s.SinksFirst a

instance (s : LoggerSystem env) : DecidablePred s.SinksFirst
  | .registerSink => inferInstanceAs (Decidable (s.worker = .unstarted))
  | .init _ _ | .other _ => .isTrue trivial

instance (s : LoggerSystem env) : DecidablePred s.EmptyInits
  | .init _ _ => inferInstanceAs (Decidable (s.logger.queue.empty = true))
  | .registerSink => inferInstanceAs (Decidable (s.worker = .unstarted))
  | .other _ => .isTrue trivial

/-- What runs with `init` keep: track of the messages, of which there are none before the first
start, and at least one sink from then on. -/
structure Underway (s : LoggerSystem env) : Prop where
  tracked : s.Tracked
  unstarted : s.worker = .unstarted → s.accepted = []
  started : s.worker ≠ .unstarted → s.backend.sinks ≠ []

/-- Between iterations nothing is with the worker. -/
theorem Underway.conserved (h : s.Underway) (hbetween : s.worker.BetweenIterations) :
    s.Conserved := by
  obtain ⟨done, flying, waiting, frames, hflow⟩ := h.tracked.flow
  have hflying : flying = [] := (workerHas_iff hbetween.plain).mp hflow.worker
  refine ⟨done, waiting, ?_, hflow.counted, hflow.sinks,
    unread_of_hasBytes hflow.waiting hflow.queue⟩
  rw [hflow.accepted, hflying, List.nil_append]

/-- A step of the logger. -/
theorem Underway.step (h : s.Underway) {a : Action env} (hs : s.step a = some s') :
    s'.Underway := by
  obtain ⟨htracked, hbuilt⟩ := h.tracked.step hs
  have hsinks : s.backend.sinks ≠ [] → s'.backend.sinks ≠ [] := by
    rw [← List.length_pos_iff, ← List.length_pos_iff, hbuilt.sinks]
    exact id
  -- all but the worker's steps and a start leave the place of the worker
  have hkeeps : s'.worker = s.worker → (s.worker = .unstarted → s'.accepted = s.accepted) →
      s'.Underway := by
    intro hworker haccepted
    refine ⟨htracked, fun hpc => ?_, fun hpc => hsinks (h.started (hworker ▸ hpc))⟩
    rw [hworker] at hpc
    exact (haccepted hpc).trans (h.unstarted hpc)
  cases step_begins hs with
  | worker hs =>
    obtain ⟨_, _, _, _, hflow⟩ := h.tracked.flow
    obtain ⟨_, _, _, _, -, -, -, hgoes, -⟩ := hflow.stepWorker hs
    have hstarted : s.worker ≠ .unstarted := by
      intro h0
      rw [h0] at hgoes
      cases hgoes
    exact ⟨htracked, fun hpc => absurd hpc hgoes.started, fun _ => hsinks (h.started hstarted)⟩
  | frontend hs =>
    exact hkeeps (stepFrontend_keeps hs).worker fun _ => (stepFrontend_keeps hs).accepted
  | log _ hs =>
    obtain ⟨_, _, _, _, hflow⟩ := h.tracked.flow
    obtain ⟨_, _, -, -, hlog⟩ := hflow.beginLog hs
    refine hkeeps hlog.worker fun hpc => hlog.accepted.resolve_right fun hrunning => ?_
    exact h.tracked.stage.started hrunning hpc
  | flush _ => exact hkeeps s.beginFlush_keeps.worker fun _ => s.beginFlush_keeps.accepted
  | startWorker _ hs =>
    rw [beginStart] at hs
    split_ifs at hs with hassert
    rw [← Option.some.inj hs] at htracked hsinks ⊢
    exact ⟨htracked, fun hpc => absurd hpc (by simp), fun _ => hsinks hassert.2⟩
  | stopWorker _ =>
    exact hkeeps (s.beginStop_keeps false).worker fun _ => (s.beginStop_keeps false).accepted
  | setLevel _ => exact hkeeps rfl fun _ => rfl

/-- A call of `register_sink` before the first start. -/
theorem Underway.registerSink (h : s.Underway) (hpc : s.worker = .unstarted)
    (hs : s.registerSink = some s') : s'.Underway := by
  rw [LoggerSystem.registerSink] at hs
  split_ifs at hs
  rw [← Option.some.inj hs]
  obtain ⟨done, flying, waiting, frames, hflow⟩ := h.tracked.flow
  have hdone : done = [] := by
    have haccepted := hflow.accepted
    rw [h.unstarted hpc, eq_comm, List.append_eq_nil_iff] at haccepted
    exact haccepted.1
  refine ⟨⟨⟨done, flying, waiting, frames, ?_⟩, h.tracked.stage.of_eq rfl rfl rfl⟩, h.unstarted,
    fun hpc' => absurd hpc hpc'⟩
  refine ⟨hflow.accepted, hflow.counted, fun sink hsink => ?_, hflow.waiting, hflow.queue,
    hflow.worker⟩
  rcases List.mem_append.mp hsink with hsink | hsink
  · exact hflow.sinks sink hsink
  · rw [List.mem_singleton.mp hsink, hdone]
    exact .nil

/-- What `init` does: the queue is empty after it, and messages, counts, threads and sinks are left
alone. -/
structure InitKeeps (s s' : LoggerSystem env) : Prop where
  queue : s'.logger.queue.HasBytes []
  accepted : s'.accepted = s.accepted
  counted : s'.logger.enqueuedCount = s.logger.enqueuedCount
  threadId : s'.logger.threadId = s.logger.threadId
  sinks : s'.backend.sinks = s.backend.sinks
  frontend : s'.frontend = s.frontend
  worker : s'.worker = s.worker
  status : s'.backend.status = s.backend.status ∨
    s.backend.status = .kUninitialized ∧ s'.backend.status = .kIdling

theorem init_keeps {mem : Allocator} {options : FemtologOptions}
    (hs : s.init mem options = some s') : s.InitKeeps s' := by
  obtain ⟨queue, hqueue, rfl⟩ := Option.map_eq_some_iff.mp hs
  have hempty := SpscQueue.hasBytes_of_reserve hqueue
  by_cases hfirst : s.backend.status = .kUninitialized
  · rw [if_pos hfirst]
    exact ⟨hempty, rfl, rfl, rfl, rfl, rfl, rfl, .inr ⟨hfirst, rfl⟩⟩
  · rw [if_neg hfirst]
    exact ⟨hempty, rfl, rfl, rfl, rfl, rfl, rfl, .inl rfl⟩

/-- A call of `init` that finds the queue empty. -/
theorem Underway.init (h : s.Underway) (hbetween : s.worker.BetweenIterations)
    (hempty : s.logger.queue.empty = true) (hkeeps : s.InitKeeps s') : s'.Underway := by
  obtain ⟨done, flying, waiting, frames, hflow⟩ := h.tracked.flow
  have hnone : frames.flatten = [] := by
    rwa [hflow.queue.empty_eq, List.isEmpty_iff] at hempty
  obtain rfl : waiting = [] := hflow.frames_eq_nil (by rw [hnone]; decide)
  have hplain : s'.worker.Plain := by
    rw [hkeeps.worker]
    exact hbetween.plain
  have hflow' : s'.Flow done flying [] [] :=
    { accepted := hkeeps.accepted ▸ hflow.accepted
      counted := by rw [hkeeps.counted, hkeeps.accepted, hflow.counted]
      sinks := by
        rw [hkeeps.sinks, hkeeps.threadId]
        exact hflow.sinks
      waiting := .nil
      queue := hkeeps.queue
      worker := (workerHas_iff hplain).mpr ((workerHas_iff hbetween.plain).mp hflow.worker) }
  have hstage : s'.Stage := by
    rcases hkeeps.status with hstatus | ⟨hfirst, hstatus⟩
    · exact h.tracked.stage.of_eq hstatus hkeeps.frontend hkeeps.worker
    · cases h.tracked.stage with
      | resting _ hfrontend hworker =>
        exact .resting (by simp [hstatus]) (hkeeps.frontend ▸ hfrontend) (hkeeps.worker ▸ hworker)
      | starting hidling _ _ => simp [hfirst] at hidling
      | working hrunning _ _ => simp [hfirst] at hrunning
  refine ⟨⟨⟨_, _, _, _, hflow'⟩, hstage⟩, ?_, ?_⟩
  · rw [hkeeps.worker, hkeeps.accepted]
    exact h.unstarted
  · rw [hkeeps.worker, hkeeps.sinks]
    exact h.started

/-- **A call of `init` that finds something in the queue loses it.** -/
theorem Underway.not_conserved (h : s.Underway) (hbetween : s.worker.BetweenIterations)
    (hkeeps : s.InitKeeps s') (hconserved : s'.Conserved) : s.logger.queue.empty = true := by
  obtain ⟨done, flying, waiting, frames, hflow⟩ := h.tracked.flow
  obtain ⟨done', waiting', hconserved⟩ := hconserved
  have hflying : flying = [] := (workerHas_iff hbetween.plain).mp hflow.worker
  have hdone' : s.accepted = done' := by
    have haccepted := hconserved.accepted
    rwa [hconserved.unread.eq_nil hkeeps.queue, List.append_nil, hkeeps.accepted] at haccepted
  have hwaiting : waiting = [] := by
    have haccepted := hflow.accepted
    by_cases hpc : s.worker = .unstarted
    · rw [h.unstarted hpc, eq_comm, List.append_eq_nil_iff, List.append_eq_nil_iff] at haccepted
      exact haccepted.2.2
    · -- some sink has got as many messages as were accepted, and only those before the waiting ones
      obtain ⟨sink, hsink⟩ := List.exists_mem_of_ne_nil _ (h.started hpc)
      have hlength := (hflow.sinks sink hsink).length_eq
      have hlength' := (hconserved.handed sink (hkeeps.sinks ▸ hsink)).length_eq
      rw [hflying, List.nil_append, hdone'] at haccepted
      rw [haccepted, List.length_append, ← hlength] at hlength'
      exact List.length_eq_zero_iff.mp (by omega)
  subst hwaiting
  obtain rfl := List.forall₂_nil_left_iff.mp hflow.waiting
  exact hflow.queue.empty_eq

/-! ## Every run -/

/-- A logger after its construction. -/
theorem underway_constructed (threadId : BitVec 32) : (constructed env threadId).Underway where
  tracked :=
    { flow := ⟨[], [], [], [], rfl, rfl, by simp [constructed], .nil, .inr ⟨rfl, rfl⟩, rfl⟩
      stage := .resting (by simp [constructed]) (.inl rfl) (.inl rfl) }
  unstarted _ := rfl
  started hpc := absurd rfl hpc

/-- Every step of a run whose inits find the queue empty. -/
theorem Underway.stepSetup (h : s.Underway) {a : SetupAction env} (hguard : s.EmptyInits a)
    (hs : s.stepSetup a = some s') : s'.Underway := by
  cases a with
  | init mem options =>
    rw [LoggerSystem.stepSetup] at hs
    split_ifs at hs with hmeets
    exact h.init hmeets.2 hguard (init_keeps hs)
  | registerSink =>
    rw [LoggerSystem.stepSetup] at hs
    split_ifs at hs
    exact h.registerSink hguard hs
  | other a => exact h.step hs

/-- **No message is lost as long as every `init` finds the queue empty**, and the first that does
not loses some: at every moment between iterations of the worker, what was counted is what the sinks
have got and what can be read from the queue. -/
theorem conserved_of_reaches {threadId : BitVec 32}
    (hrun : Reaches stepSetup EmptyInits (constructed env threadId) s)
    (hbetween : s.worker.BetweenIterations) :
    s.Conserved ∧ ∀ mem options s', s.stepSetup (.init mem options) = some s' →
      (s'.Conserved ↔ s.logger.queue.empty = true) := by
  have h : s.Underway := hrun.invariant (underway_constructed threadId)
    fun h hguard hs => h.stepSetup hguard hs
  refine ⟨h.conserved hbetween, fun mem options s' hs => ?_⟩
  rw [stepSetup] at hs
  split_ifs at hs
  have hkeeps := init_keeps hs
  refine ⟨h.not_conserved hbetween hkeeps, fun hempty => ?_⟩
  exact (h.init hbetween hempty hkeeps).conserved (hkeeps.worker ▸ hbetween)

/-- One message through a logger that is set up anew while its worker runs, with the queue empty. -/
theorem conserved_of_reaches_anew : ∃ s : LoggerSystem .wide,
    Reaches stepSetup EmptyInits (constructed .wide 1#32) s ∧ s.accepted.length = 1 ∧
    s.logger.queue.capacity = 128#64 ∧ s.Conserved := by
  obtain ⟨s, hs, hpcs⟩ : ∃ s, execute stepSetup (fun s a => decide (s.EmptyInits a))
      (constructed .wide 1#32)
      ([.init .zeroed { spscQueueSize := 64#64, backendDequeueBufferSize := 64 }, .registerSink,
        .other .startWorker, .other .frontend, .other (.log (.literal .kInfo [0x68, 0x69]))]
        ++ List.replicate 6 (.other (.worker 7#64)) ++ [.init .zeroed { spscQueueSize := 128#64 }])
      = some s ∧ (s.worker, s.accepted.length, s.logger.queue.capacity)
        = (.loadShutdown, 1, 128#64) :=
    Option.map_eq_some_iff.mp (by decide +kernel)
  simp only [Prod.mk.injEq] at hpcs
  obtain ⟨hworker, haccepted, hcapacity⟩ := hpcs
  have hrun : Reaches stepSetup EmptyInits (constructed .wide 1#32) s :=
    Reaches.of_execute of_decide_eq_true hs
  have hbetween : s.worker.BetweenIterations := by
    rw [hworker]
    trivial
  exact ⟨s, hrun, haccepted, hcapacity, (conserved_of_reaches hrun hbetween).1⟩

/-- **An `init` between the log call and the worker's iteration loses the message.** -/
theorem conserved_lost : ∃ s : LoggerSystem .wide,
    Reaches stepSetup SinksFirst (constructed .wide 1#32) s ∧ s.worker.BetweenIterations ∧
    s.logger.droppedCount = 0#64 ∧ ¬s.Conserved := by
  obtain ⟨s, hs, hpcs⟩ : ∃ s, execute stepSetup (fun s a => decide (s.EmptyInits a))
      (constructed .wide 1#32)
      [.init .zeroed { spscQueueSize := 64#64 }, .registerSink, .other .startWorker,
        .other .frontend, .other (.log (.literal .kInfo [0x68, 0x69]))]
      = some s ∧ (s.frontend, s.worker, s.logger.queue.empty, s.logger.droppedCount)
        = (.idle, .loadShutdown, false, 0#64) :=
    Option.map_eq_some_iff.mp (by decide +kernel)
  simp only [Prod.mk.injEq] at hpcs
  obtain ⟨hfrontend, hworker, hqueue, hdropped⟩ := hpcs
  have hrun : Reaches stepSetup EmptyInits (constructed .wide 1#32) s :=
    Reaches.of_execute of_decide_eq_true hs
  have hbetween : s.worker.BetweenIterations := by
    rw [hworker]
    trivial
  obtain ⟨s', hinit, hdropped'⟩ : ∃ s', s.init .zeroed { spscQueueSize := 64#64 } = some s' ∧
      s'.logger.droppedCount = s.logger.droppedCount := ⟨_, rfl, rfl⟩
  have hstep : s.stepSetup (.init .zeroed { spscQueueSize := 64#64 }) = some s' := by
    rw [stepSetup, if_pos ⟨hfrontend, hbetween⟩, hinit]
  have hguard : s.SinksFirst (.init .zeroed { spscQueueSize := 64#64 }) := trivial
  have hkeeps := init_keeps hinit
  refine ⟨s', .tail (hrun.mono fun s a hguard => ?_) hguard hstep, hkeeps.worker ▸ hbetween,
    hdropped'.trans hdropped, fun hconserved => ?_⟩
  · cases a with
    | init mem options => trivial
    | registerSink | other _ => exact hguard
  · have h : s.Underway := hrun.invariant (underway_constructed 1#32)
      fun h hguard hs => h.stepSetup hguard hs
    have hempty := h.not_conserved hbetween hkeeps hconserved
    rw [hqueue] at hempty
    cases hempty

end LoggerSystem

end Femtolog
