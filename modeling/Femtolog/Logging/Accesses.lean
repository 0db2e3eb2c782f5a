import Femtolog.Logging.Halves
import Femtolog.Logging.Rounds
import Femtolog.Logging.Session
import Femtolog.Queue.SpscCalls

/-!
# Logging/Accesses — a logger with its worker thread, access by access

`Logging/System` takes a call on the queue in one step.  Here both threads take it in the steps of
`Queue/SpscSteps`, so an enqueue of the frontend and a peek or a dequeue of the worker overlap in
every way they can: a load of an index, a `memcpy`, the store of an index.

A run of these steps is matched by a run of that system, in which a call on the queue is taken when
it returns (`refines_calls`).
-/

namespace Femtolog

variable {env : Env}

/-! ## The system -/

/-- A log call whose entry lies in `entry_buffer_` and is being enqueued. -/
structure Enqueuing (env : Env) where
  call : LogCall env
  logger : InternalLogger

/-- A logger, its worker, and their calls on the queue.  The queue is the one of `spsc`; that of
`system.logger` is not looked at.  While an entry is being enqueued, `enqueuing` has the logger as
the frontend has it, and `system.logger` is the one before the log call. -/
structure AccessSystem (env : Env) where
  system : LoggerSystem env
  spsc : SpscSystem
  enqueuing : Option (Enqueuing env) := none

namespace AccessSystem

/-- A logger after its construction, `init` and `register_sink`. -/
def initial (env : Env) (threadId : BitVec 32) (options : FemtologOptions) (queue : SpscQueue)
    (sinks : ℕ) : AccessSystem env where
  system := .initial env threadId options queue sinks
  spsc := { queue }

/-- A step of the worker: one of its call on the queue, the last of which goes on with the reply, or
one of its own. -/
def stepWorker (f : AccessSystem env) (now : Size) : Option (AccessSystem env) :=
  match f.system.worker.call with
  | some call =>
    (f.spsc.consumes call).bind fun spsc =>
      match spsc.consumer with
      | .inside _ _ _ => some { f with spsc }
      | .idle => (f.system.resumes spsc.lastReply).map fun system => { f with system, spsc }
  | none => (f.system.stepWorker now).map fun system => { f with system }

/-- A step of `enqueue_bytes` in `enqueue_log_entry`; after the last one the log call ends. -/
def enqueues (f : AccessSystem env) (p : Enqueuing env) : Option (AccessSystem env) :=
  (f.spsc.produces (.enqueueBytes p.logger.entryBytes)).bind fun spsc =>
    match spsc.producer, spsc.lastReply with
    | .inside _ _ _, _ => some { f with spsc, enqueuing := some p }
    | .idle, some (.status status _) =>
      some { f with
        system := f.system.concludes p.call (p.logger.conclude status)
        spsc
        enqueuing := none }
    | .idle, _ => none

/-- The start of a call of `log`. -/
def beginLog (f : AccessSystem env) (call : LogCall env) : Option (AccessSystem env) :=
  (f.system.logger.prepare f.system.running call).bind fun
    | .inl result => some { f with system := f.system.concludes call result }
    | .inr logger => f.enqueues ⟨call, logger⟩

/-- A step of the frontend that concerns neither the queue nor a log call. -/
def stepPlain (f : AccessSystem env) (a : Action env) : Option (AccessSystem env) :=
  if f.enqueuing.isNone then (f.system.step a).map fun system => { f with system } else none

/-- **One step of the system.**  A call begins between calls. -/
def step (f : AccessSystem env) : Action env → Option (AccessSystem env)
  | .worker now => f.stepWorker now
  | .log call =>
    if f.enqueuing.isNone ∧ f.system.frontend = .idle then f.beginLog call else none
  | .frontend =>
    match f.enqueuing with
    | some p => f.enqueues p
    | none => f.stepPlain .frontend
  | .flush => f.stepPlain .flush
  | .startWorker => f.stepPlain .startWorker
  | .stopWorker => f.stepPlain .stopWorker
  | .setLevel level => f.stepPlain (.setLevel level)

/-! ## The simulation -/

/-- Where the frontend is: between calls on the queue, or inside the enqueue of an entry. -/
inductive FrontendAt (f : AccessSystem env) : Option (Enqueuing env) → Prop
  | between (hproducer : f.spsc.producer = .idle) : FrontendAt f none
  | enqueuing {p : Enqueuing env} {pc : ProducerPc} {touched : Bool}
      (hidle : f.system.frontend = .idle)
      (hprepare : f.system.logger.prepare f.system.running p.call = some (.inr p.logger))
      (hproducer : f.spsc.producer = .inside (.enqueueBytes p.logger.entryBytes) pc touched) :
      FrontendAt f (some p)

/-- **The system of calls `c` stands for the system of accesses `f`**: it is as `f` is before the
calls on the queue that are under way, and the queues have the same bytes. -/
structure Matches (k : ℕ) (f : AccessSystem env) (c : LoggerSystem env) : Prop where
  system : ∃ queue contents, c = f.system.withQueue queue ∧ f.spsc.Holds k contents ∧
    queue.Contains k contents
  consumer : ∀ {call pc touched}, f.spsc.consumer = .inside call pc touched →
    f.system.worker.call = some call
  frontend : FrontendAt f f.enqueuing

section Simulation

variable {f f' : AccessSystem env} {c : LoggerSystem env} {k : ℕ} {now : Size}

/-- What the frontend is doing does not depend on the worker. -/
theorem FrontendAt.quiet {p : Option (Enqueuing env)} (h : FrontendAt f p)
    (hquiet : f.system.Quiet f'.system) (hproducer : f'.spsc.producer = f.spsc.producer) :
    FrontendAt f' p := by
  cases h with
  | between hidle => exact .between (hproducer.trans hidle)
  | enqueuing hidle hprepare hinside =>
    refine .enqueuing (hquiet.frontend.trans hidle) ?_ (hproducer.trans hinside)
    rw [hquiet.logger, hquiet.running]
    exact hprepare

/-- The worker is in no other call on the queue. -/
theorem consumer_in {thread : Thread Call ConsumerPc} {worker : WorkerPc} {call : Call}
    (h : ∀ {call pc touched}, thread = .inside call pc touched → worker.call = some call)
    (hcall : worker.call = some call) : thread.In call := by
  cases thread with
  | idle => trivial
  | inside => exact Option.some.inj ((h rfl).symm.trans hcall)

/-- **A step of the worker** is one of the worker of the other system, or none. -/
theorem Matches.stepWorker (h : Matches k f c) (hs : f.stepWorker now = some f') :
    Matches k f' c ∧ f'.enqueuing = f.enqueuing ∨
      ∃ c', c.stepWorker now = some c' ∧ Matches k f' c' ∧ f'.enqueuing = f.enqueuing := by
  obtain ⟨⟨queue, contents, rfl, hholds, hqueue⟩, hconsumer, hfrontend⟩ := h
  rw [AccessSystem.stepWorker] at hs
  cases hcall : f.system.worker.call with
  | none =>
    rw [hcall] at hs
    obtain ⟨system, hsystem, rfl⟩ := Option.map_eq_some_iff.mp hs
    refine .inr ⟨system.withQueue queue, ?_, ⟨⟨queue, contents, rfl, hholds, hqueue⟩, ?_, ?_⟩, rfl⟩
    · rw [LoggerSystem.stepWorker_withQueue hcall, hsystem, Option.map_some]
    · intro call pc touched hinside
      rw [hconsumer hinside] at hcall
      cases hcall
    · exact hfrontend.quiet (LoggerSystem.quiet_of_stepWorker hcall hsystem) rfl
  | some call =>
    rw [hcall] at hs
    obtain ⟨spsc, hspsc, hs⟩ := Option.bind_eq_some_iff.mp hs
    have hv := (WorkerPc.isDequeue_of_call hcall).1
    obtain ⟨contents', hholds', hproducer, hanswered⟩ :=
      hholds.consumes hv (consumer_in hconsumer hcall) hspsc
    generalize hthread : spsc.consumer = thread at hs hanswered
    cases hanswered with
    | inside =>
      obtain rfl := Option.some.inj hs
      refine .inl ⟨⟨⟨queue, contents, rfl, hholds', hqueue⟩, ?_, ?_⟩, rfl⟩
      · intro call' pc touched hinside
        obtain ⟨rfl, -, -⟩ := Thread.inside.inj (hthread.symm.trans hinside)
        exact hcall
      · exact hfrontend.quiet ⟨rfl, rfl, rfl⟩ hproducer
    | @returned reply _ hreply hanswer =>
      rw [hreply] at hs
      obtain ⟨system, hsystem, rfl⟩ := Option.map_eq_some_iff.mp hs
      obtain ⟨hfst, hsnd⟩ := SpscQueue.call_spec hqueue hv
      rw [hanswer] at hfst hsnd
      refine .inr ⟨system.withQueue (queue.call call).2, ?_,
        ⟨⟨_, contents', rfl, hholds', hsnd⟩, ?_, ?_⟩, rfl⟩
      · rw [LoggerSystem.stepWorker_of_call (s := f.system.withQueue queue) hcall]
        change ((f.system.withQueue (queue.call call).2)).resumes (some (queue.call call).1) = _
        rw [hfst, LoggerSystem.resumes_withQueue, hsystem, Option.map_some]
      · intro call' pc touched hinside
        rw [hthread] at hinside
        cases hinside
      · exact hfrontend.quiet (LoggerSystem.quiet_of_resumes hsystem) hproducer

/-- **A step of the frontend that does not log** is that of the other system. -/
theorem Matches.stepPlain (h : Matches k f c) (hstage : c.Stage) {a : Action env}
    (ha : a.IsPlain) (hs : f.stepPlain a = some f') :
    ∃ c', c.step a = some c' ∧ Matches k f' c' ∧ f'.enqueuing = f.enqueuing := by
  obtain ⟨⟨queue, contents, rfl, hholds, hqueue⟩, hconsumer, hfrontend⟩ := h
  rw [AccessSystem.stepPlain] at hs
  split_ifs at hs with hnone
  obtain ⟨system, hsystem, rfl⟩ := Option.map_eq_some_iff.mp hs
  have hstep : (f.system.withQueue queue).step a = some (system.withQueue queue) := by
    rw [LoggerSystem.step_withQueue _ _ ha, hsystem, Option.map_some]
  refine ⟨system.withQueue queue, hstep, ⟨⟨queue, contents, rfl, hholds, hqueue⟩, ?_, ?_⟩, rfl⟩
  · intro call pc touched hinside
    have hcall := hconsumer hinside
    rcases LoggerSystem.worker_of_plain ha hsystem with hsame | ⟨hstatus, hidle⟩
    · rw [hsame]
      exact hcall
    · cases hstage with
      | resting _ _ hworker =>
        rw [LoggerSystem.withQueue_worker] at hworker
        rcases hworker with hworker | hworker <;> rw [hworker] at hcall <;> cases hcall
      | starting _ hstarting _ => cases hidle.symm.trans hstarting
      | working hrunning _ _ => cases hstatus.symm.trans hrunning
  · rw [Option.isNone_iff_eq_none] at hnone
    rw [hnone] at hfrontend ⊢
    cases hfrontend with
    | between hidle => exact .between hidle

/-- **A step of an enqueue** is the whole log call of the other system, or none. -/
theorem Matches.enqueues (h : Matches k f c) {p : Enqueuing env}
    (hidle : f.system.frontend = .idle)
    (hprepare : f.system.logger.prepare f.system.running p.call = some (.inr p.logger))
    (hin : f.spsc.producer.In (.enqueueBytes p.logger.entryBytes)) (hs : f.enqueues p = some f') :
    Matches k f' c ∧ f'.enqueuing = some p ∨
      ∃ c', c.step (.log p.call) = some c' ∧ Matches k f' c' ∧ f'.enqueuing = none := by
  obtain ⟨⟨queue, contents, rfl, hholds, hqueue⟩, hconsumer, -⟩ := h
  obtain ⟨spsc, hspsc, hs⟩ := Option.bind_eq_some_iff.mp hs
  have hv : (Call.enqueueBytes p.logger.entryBytes).Valid := p.logger.length_entryBytes_lt
  obtain ⟨contents', hholds', hconsumer', hanswered⟩ := hholds.produces hv hin hspsc
  generalize hthread : spsc.producer = thread at hs hanswered
  cases hanswered with
  | inside =>
    obtain rfl := Option.some.inj hs
    refine .inl ⟨⟨⟨queue, contents, rfl, hholds', hqueue⟩, ?_, .enqueuing hidle hprepare hthread⟩,
      rfl⟩
    intro call pc touched hinside
    exact hconsumer (hconsumer'.symm.trans hinside)
  | @returned reply _ hreply hanswer =>
    obtain ⟨hfst, hsnd⟩ := SpscQueue.call_spec hqueue hv
    rw [hanswer] at hfst hsnd
    obtain rfl : reply = .status (queue.enqueueBytes p.logger.entryBytes).1 [] := hfst.symm
    rw [hreply] at hs
    obtain rfl := Option.some.inj hs
    refine .inr ⟨_, ?_, ⟨⟨(queue.enqueueBytes p.logger.entryBytes).2, contents', rfl, hholds',
      hsnd⟩, ?_, .between hthread⟩, rfl⟩
    · rw [LoggerSystem.step, if_pos (show (f.system.withQueue queue).frontend = .idle from hidle),
        LoggerSystem.beginLog_withQueue, hprepare]
      rfl
    · intro call pc touched hinside
      exact hconsumer (hconsumer'.symm.trans hinside)

/-- **How a step is matched**: by no step of the other system, inside a call on the queue; by the
same action; or, when an enqueue returns, by the log call it belongs to. -/
inductive Matched (k : ℕ) (f : AccessSystem env) (c : LoggerSystem env) :
    Action env → AccessSystem env → Prop
  | stays {a : Action env} {f' : AccessSystem env} (h : Matches k f' c)
      (hsame : ∀ p ∈ f'.enqueuing, p ∈ f.enqueuing ∨ a = .log p.call) : Matched k f c a f'
  | goes {a : Action env} {f' : AccessSystem env} {c' : LoggerSystem env}
      (hs : c.step a = some c') (h : Matches k f' c')
      (hsame : f'.enqueuing = f.enqueuing) : Matched k f c a f'
  | logs {p : Enqueuing env} {f' : AccessSystem env} {c' : LoggerSystem env}
      (hp : f.enqueuing = some p) (hs : c.step (.log p.call) = some c') (h : Matches k f' c')
      (hnone : f'.enqueuing = none) : Matched k f c .frontend f'

/-- **Every step is matched.** -/
theorem Matches.step (h : Matches k f c) (hstage : c.Stage) {a : Action env}
    (hs : f.step a = some f') : Matched k f c a f' := by
  have hplain {a : Action env} (ha : a.IsPlain) (hs : f.stepPlain a = some f') :
      Matched k f c a f' := by
    obtain ⟨c', hc', h', hsame⟩ := h.stepPlain hstage ha hs
    exact .goes hc' h' hsame
  cases a with
  | flush | startWorker | stopWorker | setLevel => exact hplain trivial hs
  | worker now =>
    obtain ⟨h', hsame⟩ | ⟨c', hc', h', hsame⟩ := h.stepWorker hs
    · exact .stays h' fun p hp => .inl (hsame ▸ hp)
    · exact .goes hc' h' hsame
  | frontend =>
    rw [AccessSystem.step] at hs
    have hat := h.frontend
    cases hp : f.enqueuing with
    | none =>
      rw [hp] at hs
      exact hplain trivial hs
    | some p =>
      rw [hp] at hs hat
      cases hat with
      | enqueuing hidle hprepare hproducer =>
        obtain ⟨h', hsome⟩ | ⟨c', hc', h', hnone⟩ := h.enqueues hidle hprepare
          (by rw [hproducer]; rfl) hs
        · refine .stays h' fun p' hp' => .inl ?_
          rw [hp]
          rwa [hsome] at hp'
        · exact .logs hp hc' h' hnone
  | log call =>
    rw [AccessSystem.step] at hs
    split_ifs at hs with hbetween
    obtain ⟨hnone, hidle⟩ := hbetween
    rw [Option.isNone_iff_eq_none] at hnone
    have hat := h.frontend
    rw [hnone] at hat
    cases hat with
    | between hproducer =>
      obtain ⟨x, hprepare, hs⟩ := Option.bind_eq_some_iff.mp hs
      cases x with
      | inl result =>
        obtain rfl := Option.some.inj hs
        obtain ⟨queue, contents, rfl, hholds, hqueue⟩ := h.system
        have hat' : FrontendAt { f with system := f.system.concludes call result } f.enqueuing :=
          hnone ▸ .between hproducer
        have hc' : (f.system.withQueue queue).step (.log call)
            = some ((f.system.concludes call result).withQueue queue) := by
          have hidle' : (f.system.withQueue queue).frontend = .idle := hidle
          rw [LoggerSystem.step, if_pos hidle', LoggerSystem.beginLog_withQueue, hprepare]
          rfl
        exact .goes hc' ⟨⟨queue, contents, rfl, hholds, hqueue⟩, h.consumer, hat'⟩ rfl
      | inr logger =>
        obtain ⟨h', hsome⟩ | ⟨c', hc', h', hnone'⟩ :=
          h.enqueues (p := ⟨call, logger⟩) hidle hprepare (by rw [hproducer]; trivial) hs
        · refine .stays h' fun p hp => .inr ?_
          rw [hsome] at hp
          obtain rfl := Option.some.inj hp
          rfl
        · exact .goes hc' h' (hnone'.trans hnone.symm)

/-! ### Steps that can be taken -/

/-- The worker can go on where that of the other system can. -/
theorem Matches.exists_stepWorker (h : Matches k f c) (hs : ∃ c', c.stepWorker now = some c') :
    ∃ f', f.stepWorker now = some f' := by
  obtain ⟨⟨queue, contents, rfl, hholds, hqueue⟩, hconsumer, -⟩ := h
  obtain ⟨c', hs⟩ := hs
  rw [AccessSystem.stepWorker]
  cases hcall : f.system.worker.call with
  | none =>
    rw [LoggerSystem.stepWorker_withQueue hcall, Option.map_eq_some_iff] at hs
    obtain ⟨system, hsystem, -⟩ := hs
    rw [hsystem]
    exact ⟨_, rfl⟩
  | some call =>
    obtain ⟨hv, hdequeue⟩ := WorkerPc.isDequeue_of_call hcall
    obtain ⟨spsc, hspsc⟩ := f.spsc.exists_consumes hdequeue
    obtain ⟨_, -, -, hanswered⟩ := hholds.consumes hv (consumer_in hconsumer hcall) hspsc
    dsimp only
    rw [hspsc, Option.bind_some]
    generalize spsc.consumer = thread at hanswered
    cases hanswered with
    | inside => exact ⟨_, rfl⟩
    | @returned reply _ hreply hanswer =>
      obtain ⟨hfst, -⟩ := SpscQueue.call_spec hqueue hv
      rw [hanswer] at hfst
      rw [LoggerSystem.stepWorker_of_call (s := f.system.withQueue queue) hcall] at hs
      change ((f.system.withQueue (queue.call call).2)).resumes (some (queue.call call).1) = _ at hs
      rw [hfst, LoggerSystem.resumes_withQueue, Option.map_eq_some_iff] at hs
      obtain ⟨system, hsystem, -⟩ := hs
      rw [hreply, hsystem]
      exact ⟨_, rfl⟩

/-- An enqueue can always go on. -/
theorem Matches.exists_enqueues (h : Matches k f c) {p : Enqueuing env}
    (hin : f.spsc.producer.In (.enqueueBytes p.logger.entryBytes)) :
    ∃ f', f.enqueues p = some f' := by
  obtain ⟨⟨queue, contents, rfl, hholds, hqueue⟩, -, -⟩ := h
  have hv : (Call.enqueueBytes p.logger.entryBytes).Valid := p.logger.length_entryBytes_lt
  obtain ⟨spsc, hspsc⟩ : ∃ spsc, f.spsc.produces (.enqueueBytes p.logger.entryBytes) = some spsc :=
    f.spsc.exists_produces trivial
  obtain ⟨_, -, -, hanswered⟩ := hholds.produces hv hin hspsc
  rw [AccessSystem.enqueues, hspsc, Option.bind_some]
  generalize spsc.producer = thread at hanswered
  cases hanswered with
  | inside => exact ⟨_, rfl⟩
  | @returned reply _ hreply hanswer =>
    obtain rfl := congrArg Prod.fst hanswer
    rw [hreply]
    exact ⟨_, rfl⟩

end Simulation

/-! ## Runs -/

/-- **The guard does not look at the queue**, nor that of a log call at the state. -/
structure Blind (G : LoggerSystem env → Action env → Prop) : Prop where
  queue : ∀ {s : LoggerSystem env} {queue : SpscQueue} {a : Action env},
    G s a → G (s.withQueue queue) a
  log : ∀ {s t : LoggerSystem env} {call : LogCall env}, G s (.log call) → G t (.log call)

/-- A session: the worker is started once, the request numbers do not run over, and the messages can
be read. -/
def InSession (capacity : ℕ) (s : LoggerSystem env) (a : Action env) : Prop :=
  s.OneStart a ∧ s.FewFlushes a ∧ a.ByValue capacity ∧ a.ReadInOrder

instance (capacity : ℕ) (s : LoggerSystem env) (a : Action env) :
    Decidable (InSession capacity s a) := inferInstanceAs (Decidable (_ ∧ _ ∧ _ ∧ _))

theorem blind_inSession (capacity : ℕ) :
    Blind (InSession capacity : LoggerSystem env → Action env → Prop) where
  queue {s queue a} h := by cases a <;> exact h
  log h := ⟨trivial, trivial, h.2.2⟩

/-- What the system of accesses shows is what the system of calls does: all but the memory of the
queue is the same, and the bytes in the queue are those enqueued and not yet dequeued. -/
structure Shows (f : AccessSystem env) (c : LoggerSystem env) : Prop where
  system : c = f.system.withQueue c.logger.queue
  queue : c.logger.queue.HasBytes (f.spsc.enqueued.drop f.spsc.dequeued.length)

section Runs

variable {f f' : AccessSystem env} {c c' : LoggerSystem env} {k : ℕ}
  {G : LoggerSystem env → Action env → Prop}

theorem Matches.shows (h : Matches k f c) : f.Shows c := by
  obtain ⟨queue, contents, rfl, ⟨stream, H, hinv, rfl⟩, hqueue⟩ := h.system
  refine ⟨rfl, ?_⟩
  rw [hinv.enqueued_eq, hinv.dequeued_length]
  exact .inl ⟨k, hqueue⟩

theorem matches_initial {mem : Allocator} {threadId : BitVec 32} {options : FemtologOptions}
    {queue : SpscQueue} {sinks : ℕ}
    (hqueue : SpscQueue.reserve mem options.spscQueueSize = some queue)
    (hbuf : queue.buffer.isSome) :
    ∃ k, Matches k (initial env threadId options queue sinks)
      (.initial env threadId options queue sinks) := by
  obtain ⟨k, hinv⟩ := SpscSystem.inv_of_reserve hqueue hbuf
  have hkeep := hinv.producer
  cases hkeep with
  | idle hkeep =>
    exact ⟨k, ⟨queue, [], rfl, ⟨[], 0, hinv, rfl⟩, [], 0, hinv.indexed, hkeep, rfl⟩, nofun,
      .between rfl⟩

/-- The two systems are matched, and the message on its way has passed the guard. -/
structure Paired (G : LoggerSystem env → Action env → Prop) (k : ℕ) (f : AccessSystem env)
    (c : LoggerSystem env) : Prop where
  matched : Matches k f c
  tracked : c.Tracked
  guarded : ∀ p ∈ f.enqueuing, G c (.log p.call)

/-- A step of the system of calls that matches one of the system of accesses. -/
theorem Paired.goes (h : Paired G k f c) (hG : Blind G) {a : Action env} (ha : G c a)
    (hs : c.step a = some c') (hmatch : Matches k f' c')
    (hguarded : ∀ p ∈ f'.enqueuing, G c (.log p.call)) :
    ∃ t, Reaches LoggerSystem.step G c t ∧ Paired G k f' t :=
  ⟨c', Reaches.refl.tail ha hs, hmatch, (h.tracked.step hs).1, fun p hp => hG.log (hguarded p hp)⟩

/-- **Every step keeps the pair.** -/
theorem Paired.step (h : Paired G k f c) (hG : Blind G) {a : Action env} (hguard : G f.system a)
    (hs : f.step a = some f') : ∃ t, Reaches LoggerSystem.step G c t ∧ Paired G k f' t := by
  have ha : G c a := by
    obtain ⟨queue, _, rfl, -⟩ := h.matched.system
    exact hG.queue hguard
  cases h.matched.step h.tracked.stage hs with
  | stays hmatch hsame =>
    refine ⟨c, .refl, hmatch, h.tracked, fun p hp => ?_⟩
    rcases hsame p hp with hold | rfl
    · exact h.guarded p hold
    · exact ha
  | goes hs' hmatch hsame => exact h.goes hG ha hs' hmatch (hsame ▸ h.guarded)
  | logs hp hs' hmatch hnone =>
    refine h.goes hG (h.guarded _ hp) hs' hmatch ?_
    rw [hnone]
    exact fun p hp => absurd hp (Option.not_mem_none p)

/-- **A run of accesses is matched by a run of calls.** -/
theorem paired_of_reaches {mem : Allocator} {threadId : BitVec 32} {options : FemtologOptions}
    {queue : SpscQueue} {sinks : ℕ}
    (hqueue : SpscQueue.reserve mem options.spscQueueSize = some queue) (hbuf : queue.buffer.isSome)
    (hG : Blind G) (hrun : Reaches AccessSystem.step (fun f a => G f.system a)
      (initial env threadId options queue sinks) f) :
    ∃ k c, Reaches LoggerSystem.step G (.initial env threadId options queue sinks) c ∧
      Paired G k f c := by
  obtain ⟨k, hmatch⟩ := matches_initial hqueue hbuf
  have hinit : Paired G k (initial env threadId options queue sinks)
      (.initial env threadId options queue sinks) :=
    ⟨hmatch, LoggerSystem.tracked_initial (SpscQueue.hasBytes_of_reserve hqueue),
      fun p hp => absurd hp (Option.not_mem_none p)⟩
  exact ⟨k, hrun.simulate hinit fun h hguard hs => h.step hG hguard hs⟩

/-- **The system of accesses refines the system of calls** — in every interleaving of the accesses
of the two threads, any number of starts and stops among them, the messages, their counts and what
the sinks have got are those of a run that takes each call on the queue in one step. -/
theorem refines_calls {mem : Allocator} {threadId : BitVec 32} {options : FemtologOptions}
    {queue : SpscQueue} {sinks : ℕ}
    (hqueue : SpscQueue.reserve mem options.spscQueueSize = some queue) (hbuf : queue.buffer.isSome)
    (hG : Blind G) (hrun : Reaches AccessSystem.step (fun f a => G f.system a)
      (initial env threadId options queue sinks) f) :
    ∃ c, Reaches LoggerSystem.step G (.initial env threadId options queue sinks) c ∧ f.Shows c := by
  obtain ⟨_, c, hreaches, h⟩ := paired_of_reaches hqueue hbuf hG hrun
  exact ⟨c, hreaches, h.matched.shows⟩

/-- The worker peeks while the first entry is being enqueued. -/
theorem refines_calls_two : ∃ queue f, SpscQueue.reserve .zeroed 64#64 = some queue
    ∧ execute step (fun f a => decide (InSession (Env.wide.reserve 2048) f.system a))
        (initial .wide 1#32 { spscQueueSize := 64#64 } queue 2)
        ([.startWorker, .frontend] ++ List.replicate 3 (.worker 7#64)
          ++ [.log (.literal .kInfo [0x68, 0x69]), .worker 7#64, .frontend, .worker 7#64])
      = some f
    ∧ f.enqueuing.isSome ∧ f.system.worker = .peek .main
    ∧ ∃ c, Reaches LoggerSystem.step (InSession (Env.wide.reserve 2048))
        (.initial .wide 1#32 { spscQueueSize := 64#64 } queue 2) c ∧ f.Shows c := by
  obtain ⟨f, hf, hpcs⟩ : ∃ f, execute step
      (fun f a => decide (InSession (Env.wide.reserve 2048) f.system a))
      (initial .wide 1#32 { spscQueueSize := 64#64 }
        { buffer := some (List.replicate 128 0), capacity := 64#64, mask := 63#64 } 2)
      ([.startWorker, .frontend] ++ List.replicate 3 (.worker 7#64)
        ++ [.log (.literal .kInfo [0x68, 0x69]), .worker 7#64, .frontend, .worker 7#64])
      = some f ∧ (f.enqueuing.isSome, f.system.worker) = (true, .peek .main) :=
    Option.map_eq_some_iff.mp (by decide +kernel)
  have hq : SpscQueue.reserve .zeroed 64#64
      = some { buffer := some (List.replicate 128 0), capacity := 64#64, mask := 63#64 } := rfl
  obtain ⟨hsome, hpeek⟩ := Prod.mk.inj hpcs
  exact ⟨_, f, hq, hf, hsome, hpeek,
    refines_calls hq rfl (blind_inSession _) (Reaches.of_execute of_decide_eq_true hf)⟩

end Runs

/-! ## Sessions -/

/-- The step ends a call of `flush`. -/
def FlushReturns (f : AccessSystem env) (a : Action env) (f' : AccessSystem env) : Prop :=
  f.step a = some f' ∧ f'.system.frontend = .idle ∧
    (a = .flush ∨ a = .frontend ∧ ∃ seq, f.system.frontend = .flushing seq)

/-- The step ends a call of `stop`. -/
def StopReturns (f : AccessSystem env) (a : Action env) (f' : AccessSystem env) : Prop :=
  f.step a = some f' ∧ (a = .stopWorker ∧ f'.system.frontend = .idle ∨
    a = .frontend ∧ ∃ terminate, f.system.frontend = .joining terminate)

/-- **What a session promises, access by access**: neither thread gets stuck in a call on the queue;
a dequeue finds the whole of the entry that was peeked at; and all that has been accepted has been
passed to every sink when `flush` returns, and delivered to it when `stop` does. -/
structure KeepsSession (s₀ : LoggerSystem env) (f : AccessSystem env) : Prop where
  works : f.system.worker ≠ .unstarted → f.system.worker ≠ .exited → ∀ now,
    ∃ f', f.step (.worker now) = some f'
  enqueues : f.enqueuing.isSome → ∃ f', f.step .frontend = some f'
  framed : ∀ {r payloadLen now f'}, f.system.worker = .dequeue r payloadLen →
    f.step (.worker now) = some f' →
      f'.system.worker = .dequeue r payloadLen ∨ f'.system.worker = .process r
  flushed : ∀ {a f'}, f.FlushReturns a f' → f'.system.Passed f'.system.accepted.length
  stopped : ∀ {a f'}, f.StopReturns a f' →
    f'.system.logger.enqueuedCount = BitVec.ofNat 64 f'.system.accepted.length ∧
      f'.system.backend.sinks.length = s₀.backend.sinks.length ∧
      ∀ sink ∈ f'.system.backend.sinks,
        List.Forall₂ (LogCall.Delivered s₀.logger.threadId) f'.system.accepted sink

section Session

variable {f f' : AccessSystem env} {c s₀ : LoggerSystem env} {k : ℕ}
  {done flying waiting : List (LogCall env)} {frames : List (List Byte)}

/-- A step of a call that does not log is that of the other system. -/
theorem Matches.step_plain (h : Matches k f c) (hstage : c.Stage) {a : Action env}
    (ha : a.IsPlain) (hbusy : a = .frontend → f.system.frontend ≠ .idle)
    (hs : f.step a = some f') : ∃ c', c.step a = some c' ∧ Matches k f' c' := by
  have hplain : f.stepPlain a = some f' := by
    cases a with
    | log | worker => cases ha
    | frontend =>
      have hat := h.frontend
      rw [AccessSystem.step] at hs
      cases hp : f.enqueuing with
      | none => rwa [hp] at hs
      | some p =>
        rw [hp] at hat
        cases hat with
        | enqueuing hidle _ _ => exact absurd hidle (hbusy rfl)
    | flush | startWorker | stopWorker | setLevel => exact hs
  obtain ⟨c', hc', h', -⟩ := h.stepPlain hstage ha hplain
  exact ⟨c', hc', h'⟩

theorem Matches.frontend_eq (h : Matches k f c) : c.frontend = f.system.frontend := by
  obtain ⟨queue, _, rfl, -⟩ := h.system
  rfl

theorem Matches.worker_eq (h : Matches k f c) : c.worker = f.system.worker := by
  obtain ⟨queue, _, rfl, -⟩ := h.system
  rfl

/-- The end of a flush is that of one of the other system. -/
theorem Matches.flushReturns (h : Matches k f c) (hstage : c.Stage) {a : Action env}
    (hreturns : f.FlushReturns a f') : ∃ c', c.FlushReturns a c' ∧ Matches k f' c' := by
  obtain ⟨hs, hidle, hflush⟩ := hreturns
  have ha : a.IsPlain := by rcases hflush with rfl | ⟨rfl, -⟩ <;> trivial
  have hbusy : a = .frontend → f.system.frontend ≠ .idle := by
    rintro rfl
    obtain ⟨-, seq, hseq⟩ := hflush.resolve_left (by simp)
    simp [hseq]
  obtain ⟨c', hc', h'⟩ := h.step_plain hstage ha hbusy hs
  rw [← h.frontend_eq] at hflush
  exact ⟨c', ⟨hc', h'.frontend_eq.trans hidle, hflush⟩, h'⟩

/-- The end of a stop is that of one of the other system. -/
theorem Matches.stopReturns (h : Matches k f c) (hstage : c.Stage) {a : Action env}
    (hreturns : f.StopReturns a f') : ∃ c', c.StopReturns a c' ∧ Matches k f' c' := by
  obtain ⟨hs, hstop⟩ := hreturns
  have ha : a.IsPlain := by rcases hstop with ⟨rfl, -⟩ | ⟨rfl, -⟩ <;> trivial
  have hbusy : a = .frontend → f.system.frontend ≠ .idle := by
    rintro rfl
    obtain ⟨-, terminate, hjoining⟩ := hstop.resolve_left (by simp)
    simp [hjoining]
  obtain ⟨c', hc', h'⟩ := h.step_plain hstage ha hbusy hs
  rw [← h.frontend_eq, ← h'.frontend_eq] at hstop
  exact ⟨c', ⟨hc', hstop⟩, h'⟩

/-- The enqueue under way can go on. -/
theorem Matches.exists_step_enqueuing (h : Matches k f c) (hsome : f.enqueuing.isSome) :
    ∃ f', f.step .frontend = some f' := by
  have hat := h.frontend
  rw [AccessSystem.step]
  cases hp : f.enqueuing with
  | none =>
    rw [hp] at hsome
    cases hsome
  | some p =>
    rw [hp] at hat
    cases hat with
    | enqueuing _ _ hproducer => exact h.exists_enqueues (hproducer ▸ rfl)

/-- A dequeue of a whole entry does not fail. -/
theorem Matches.framed (h : Matches k f c) {r : Caller} {now : Size}
    (hc : ∃ c', c.stepWorker now = some c' ∧ c'.worker = .process r)
    (hs : f.stepWorker now = some f') :
    f'.system.worker = f.system.worker ∨ f'.system.worker = .process r := by
  obtain ⟨c', hc', hprocess⟩ := hc
  obtain ⟨h', -⟩ | ⟨c'', hc'', h', -⟩ := h.stepWorker hs
  · exact .inl (h'.worker_eq.symm.trans h.worker_eq)
  · obtain rfl := Option.some.inj (hc'.symm.trans hc'')
    exact .inr (h'.worker_eq.symm.trans hprocess)

/-- **A session delivers its messages, access by access**, and `flush` is a barrier in it: in every
interleaving of the loads, copies and stores of the two threads. -/
theorem delivers_accesses {mem : Allocator} {threadId : BitVec 32} {options : FemtologOptions}
    {queue : SpscQueue} {sinks : ℕ}
    (hqueue : SpscQueue.reserve mem options.spscQueueSize = some queue) (hbuf : queue.buffer.isSome)
    (hroom : sizeofLogEntry + kMaxPayloadSize ≤ options.backendDequeueBufferSize)
    (hrun : Reaches step
      (fun f a => InSession (env.reserve options.backendFormatBufferSize) f.system a)
      (initial env threadId options queue sinks) f) :
    f.KeepsSession (.initial env threadId options queue sinks) := by
  have hformat : (LoggerSystem.initial env threadId options queue sinks).backend.formatBuffer.length
      = env.reserve options.backendFormatBufferSize := env.length_formatBuffer _
  have hdequeue : 1024
      ≤ (LoggerSystem.initial env threadId options queue sinks).backend.dequeueBuffer.length :=
    hroom.trans_eq List.length_replicate.symm
  have hsound : LoggerSystem.Sound (.initial env threadId options queue sinks)
      (.initial env threadId options queue sinks) [] [] [] [] :=
    LoggerSystem.sound_initial (SpscQueue.hasBytes_of_reserve hqueue)
  rw [← hformat] at hrun
  obtain ⟨k, c, hreaches, hmatch, htracked, -⟩ :=
    paired_of_reaches hqueue hbuf (blind_inSession _) hrun
  obtain ⟨done, flying, waiting, frames, h, hr⟩ := hreaches.invariant
    (I := fun c => ∃ done flying waiting frames,
      LoggerSystem.Sound (.initial env threadId options queue sinks) c done flying waiting frames ∧
        c.Barrier done.length)
    ⟨[], [], [], [], hsound, LoggerSystem.barrier_initial threadId options queue sinks⟩
    fun ⟨_, _, _, _, h, hr⟩ hguard hs => hr.step h hguard.1 hguard.2.1 hs
  obtain ⟨_, _, _, _, h', hreadable⟩ := hreaches.invariant
    (I := fun c => ∃ done flying waiting frames,
      LoggerSystem.Sound (.initial env threadId options queue sinks) c done flying waiting frames ∧
        c.Readable
          (LoggerSystem.initial env threadId options queue sinks).backend.formatBuffer.length)
    ⟨[], [], [], [], hsound, LoggerSystem.readable_initial threadId options queue sinks _⟩
    fun ⟨_, _, _, _, h, hr⟩ hguard hs => hr.step h hguard.1 hguard.2.2.1 hguard.2.2.2 hs
  refine ⟨fun hstarted hexited now => ?_, hmatch.exists_step_enqueuing, fun hpc hs => ?_,
    fun hreturns => ?_, fun hreturns => ?_⟩
  · rw [← hmatch.worker_eq] at hstarted hexited
    exact hmatch.exists_stepWorker (hreadable.works h' hdequeue hstarted hexited now)
  · rw [← hpc]
    exact hmatch.framed (h'.framed hdequeue (hmatch.worker_eq.trans hpc) _).2 hs
  · obtain ⟨c', hreturns', hmatch'⟩ := hmatch.flushReturns htracked.stage hreturns
    have hpassed := hr.returned h hreturns'
    obtain ⟨queue', _, rfl, -⟩ := hmatch'.system
    exact hpassed
  · obtain ⟨c', hreturns', hmatch'⟩ := hmatch.stopReturns htracked.stage hreturns
    have hstopped := (hreadable.keepsSession h' hdequeue).stopped hreturns'
    obtain ⟨queue', _, rfl, -⟩ := hmatch'.system
    exact hstopped

/-- A message, a flush and a stop; the worker peeks while the message is being enqueued. -/
theorem delivers_accesses_one : ∃ queue f, SpscQueue.reserve .zeroed 64#64 = some queue
    ∧ execute step (fun f a => decide (InSession (Env.wide.reserve 2048) f.system a))
        (initial .wide 1#32 { spscQueueSize := 64#64 } queue 2)
        ([.startWorker, .frontend] ++ List.replicate 3 (.worker 7#64)
          ++ [.log (.literal .kInfo [0x68, 0x69]), .worker 7#64, .frontend, .worker 7#64, .frontend,
            .worker 7#64, .frontend, .flush]
          ++ List.replicate 18 (.worker 8#64) ++ [.frontend, .stopWorker]
          ++ List.replicate 9 (.worker 9#64))
      = some f
    ∧ f.system.frontend = .joining false ∧ f.system.worker = .exited
    ∧ f.KeepsSession (.initial .wide 1#32 { spscQueueSize := 64#64 } queue 2) := by
  obtain ⟨f, hf, hpcs⟩ : ∃ f, execute step
      (fun f a => decide (InSession (Env.wide.reserve 2048) f.system a))
      (initial .wide 1#32 { spscQueueSize := 64#64 }
        { buffer := some (List.replicate 128 0), capacity := 64#64, mask := 63#64 } 2)
      ([.startWorker, .frontend] ++ List.replicate 3 (.worker 7#64)
        ++ [.log (.literal .kInfo [0x68, 0x69]), .worker 7#64, .frontend, .worker 7#64, .frontend,
          .worker 7#64, .frontend, .flush]
        ++ List.replicate 18 (.worker 8#64) ++ [.frontend, .stopWorker]
        ++ List.replicate 9 (.worker 9#64))
      = some f ∧ (f.system.frontend, f.system.worker) = (.joining false, .exited) :=
    Option.map_eq_some_iff.mp (by decide +kernel)
  have hq : SpscQueue.reserve .zeroed 64#64
      = some { buffer := some (List.replicate 128 0), capacity := 64#64, mask := 63#64 } := rfl
  obtain ⟨hfrontend, hworker⟩ := Prod.mk.inj hpcs
  exact ⟨_, f, hq, hf, hfrontend, hworker,
    delivers_accesses hq rfl (by decide) (Reaches.of_execute of_decide_eq_true hf)⟩

end Session

end AccessSystem

end Femtolog
