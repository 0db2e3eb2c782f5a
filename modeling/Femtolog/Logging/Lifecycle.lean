import Femtolog.Logging.Delivery

/-!
# Logging/Lifecycle — rounds of `start_worker` and `stop_worker`

`stop` raises `shutdown_required_`, and the worker leaves its main loop when it sees the flag.
Nothing takes the flag down again.  As long as every start finds it down, a logger goes through the
stages of `Lifecycle`, and a round ends with all messages handed over (`delivers_rounds`).  A start
after a stop finds it up: the worker of the second round drains the queue once and leaves
(`delivers_rounds_restarted`).
-/

namespace Femtolog

variable {env : Env}

/-! ## Places of the worker -/

namespace WorkerPc

/-- The worker thread is in the main loop of `run_loop`. -/
def InMainLoop : WorkerPc → Prop
  | .unstarted | .peek .drain | .dequeue .drain _ | .process .drain => False
  | .drained | .storeFinal _ | .exited => False
  | _ => True

/-- The worker thread has drained the queue for the last time. -/
def PastDrain : WorkerPc → Prop
  | .drained | .storeFinal _ | .exited => True
  | _ => False

theorem PastDrain.plain {pc : WorkerPc} (h : pc.PastDrain) : pc.Plain := by
  cases pc <;> first | exact h | trivial

end WorkerPc

namespace Goes

variable {b : BackendWorker} {settled : Prop} {pc pc' : WorkerPc} {completed : Size}

/-- The worker stays in its main loop while the flag is down. -/
theorem inMainLoop (h : Goes b settled pc pc' completed) (hdown : b.shutdownRequired = false)
    (hpc : pc.InMainLoop) : pc'.InMainLoop := by
  cases h with
  | shutdown hup => rw [hup] at hdown; cases hdown
  | goOn | requested | due | notDue | completed => trivial
  | @found c _ | @taken c _ => cases c <;> exact hpc
  | @empty c _ | @handed c => cases c <;> trivial
  | drained | final => exact hpc

/-- A worker that moves has been started. -/
theorem started (h : Goes b settled pc pc' completed) : pc' ≠ .unstarted := by
  cases h with
  | @empty c _ | @handed c => cases c <;> exact nofun
  | _ => exact nofun

/-- A worker that has drained the queue is on its way out. -/
theorem pastDrain_next (h : Goes b settled pc pc' completed) (hpc : pc.PastDrain) :
    pc'.PastDrain := by
  cases h with
  | drained | final => trivial
  | _ => exact absurd hpc id

/-- The worker has drained the queue where it finds it empty. -/
theorem pastDrain (h : Goes b settled pc pc' completed) (hpc' : pc'.PastDrain) :
    settled ∨ pc.PastDrain := by
  cases h with
  | empty h => exact .inl h
  | drained | final => exact .inr trivial
  | @handed c => cases c <;> exact absurd hpc' id
  | _ => exact absurd hpc' id

end Goes

namespace LoggerSystem

variable {s s' : LoggerSystem env}

/-! ## Stages -/

/-- **The stages of a logger** that is started with the flag down. -/
inductive Lifecycle (s : LoggerSystem env) : Prop
  | fresh (hstatus : s.backend.status = .kIdling) (hfrontend : s.frontend = .idle)
      (hworker : s.worker = .unstarted) (hdown : s.backend.shutdownRequired = false)
      (hnone : s.accepted = [])
  | starting (hstatus : s.backend.status = .kIdling) (hfrontend : s.frontend = .starting)
      (hworker : s.worker.InMainLoop) (hdown : s.backend.shutdownRequired = false)
  | running (hstatus : s.backend.status = .kRunning)
      (hfrontend : s.frontend = .idle ∨ (∃ seq, s.frontend = .flushing seq) ∨
        s.frontend = .stopping)
      (hworker : s.worker.InMainLoop) (hdown : s.backend.shutdownRequired = false)
  | stopping (hstatus : s.backend.status = .kRunning)
      (hfrontend : ∃ terminate, s.frontend = .joining terminate)
      (hworker : s.worker ≠ .unstarted) (hup : s.backend.shutdownRequired = true)
  | stopped (hstatus : s.backend.status = .kIdling)
      (hfrontend : s.frontend = .idle ∨ s.frontend = .terminated)
      (hworker : s.worker = .exited) (hup : s.backend.shutdownRequired = true)

/-- A step of the worker keeps the stage. -/
theorem Lifecycle.stepWorker (h : s.Lifecycle) (hkeeps : s.WorkerKeeps s') {settled : Prop}
    {completed : Size} (hgoes : Goes s.backend settled s.worker s'.worker completed) :
    s'.Lifecycle := by
  cases h with
  | fresh hstatus hfrontend hworker hdown hnone =>
    rw [hworker] at hgoes
    cases hgoes
  | starting hstatus hfrontend hworker hdown =>
    exact .starting (hkeeps.status ▸ hstatus) (hkeeps.frontend ▸ hfrontend)
      (hgoes.inMainLoop hdown hworker) (hkeeps.shutdown ▸ hdown)
  | running hstatus hfrontend hworker hdown =>
    exact .running (hkeeps.status ▸ hstatus) (hkeeps.frontend ▸ hfrontend)
      (hgoes.inMainLoop hdown hworker) (hkeeps.shutdown ▸ hdown)
  | stopping hstatus hfrontend hworker hup =>
    exact .stopping (hkeeps.status ▸ hstatus) (hkeeps.frontend ▸ hfrontend) hgoes.started
      (hkeeps.shutdown ▸ hup)
  | stopped hstatus hfrontend hworker hup =>
    rw [hworker] at hgoes
    cases hgoes

/-- **A logger that runs and is not being stopped has its worker in the main loop.** -/
theorem Lifecycle.inMainLoop (h : s.Lifecycle) (hstatus : s.backend.status = .kRunning)
    (hjoin : ∀ terminate, s.frontend ≠ .joining terminate) :
    s.worker.InMainLoop ∧ s.backend.shutdownRequired = false := by
  cases h with
  | fresh hidling | starting hidling | stopped hidling =>
    rw [hstatus] at hidling
    cases hidling
  | running _ _ hworker hdown => exact ⟨hworker, hdown⟩
  | stopping _ hfrontend _ _ =>
    obtain ⟨terminate, hfrontend⟩ := hfrontend
    exact absurd hfrontend (hjoin terminate)

theorem Lifecycle.of_eq (h : s.Lifecycle) (hstatus : s'.backend.status = s.backend.status)
    (hfrontend : s'.frontend = s.frontend) (hworker : s'.worker = s.worker)
    (hshutdown : s'.backend.shutdownRequired = s.backend.shutdownRequired)
    (haccepted : s'.accepted = s.accepted) : s'.Lifecycle := by
  cases h with
  | fresh h1 h2 h3 h4 h5 =>
    exact .fresh (hstatus ▸ h1) (hfrontend ▸ h2) (hworker ▸ h3) (hshutdown ▸ h4) (haccepted ▸ h5)
  | starting h1 h2 h3 h4 =>
    exact .starting (hstatus ▸ h1) (hfrontend ▸ h2) (hworker ▸ h3) (hshutdown ▸ h4)
  | running h1 h2 h3 h4 =>
    exact .running (hstatus ▸ h1) (hfrontend ▸ h2) (hworker ▸ h3) (hshutdown ▸ h4)
  | stopping h1 h2 h3 h4 =>
    exact .stopping (hstatus ▸ h1) (hfrontend ▸ h2) (hworker ▸ h3) (hshutdown ▸ h4)
  | stopped h1 h2 h3 h4 =>
    exact .stopped (hstatus ▸ h1) (hfrontend ▸ h2) (hworker ▸ h3) (hshutdown ▸ h4)

/-! ## The stage of a call -/

theorem Lifecycle.of_starting (h : s.Lifecycle) (hfrontend : s.frontend = .starting) :
    s.worker.InMainLoop ∧ s.backend.shutdownRequired = false := by
  cases h with
  | starting _ _ hworker hdown => exact ⟨hworker, hdown⟩
  | fresh _ h | running _ h | stopping _ h | stopped _ h => simp [hfrontend] at h

theorem Lifecycle.of_flushing (h : s.Lifecycle) {seq : Size}
    (hfrontend : s.frontend = .flushing seq) :
    s.backend.status = .kRunning ∧ s.worker.InMainLoop ∧ s.backend.shutdownRequired = false := by
  cases h with
  | running hstatus _ hworker hdown => exact ⟨hstatus, hworker, hdown⟩
  | fresh _ h | starting _ h | stopping _ h | stopped _ h => simp [hfrontend] at h

theorem Lifecycle.status_of_stopping (h : s.Lifecycle) (hfrontend : s.frontend = .stopping) :
    s.backend.status = .kRunning := by
  cases h with
  | running hstatus _ _ _ => exact hstatus
  | fresh _ h | starting _ h | stopping _ h | stopped _ h => simp [hfrontend] at h

theorem Lifecycle.of_joining (h : s.Lifecycle) {terminate : Bool}
    (hfrontend : s.frontend = .joining terminate) : s.backend.shutdownRequired = true := by
  cases h with
  | stopping _ _ _ hup => exact hup
  | fresh _ h | starting _ h | running _ h | stopped _ h => simp [hfrontend] at h

/-! ## The invariant -/

/-- The start of the worker finds `shutdown_required_` down. -/
def FreshStart (s : LoggerSystem env) : Action env → Prop
  | .startWorker => s.backend.shutdownRequired = false
  | _ => True

instance (s : LoggerSystem env) : (a : Action env) → Decidable (s.FreshStart a)
  | .startWorker => inferInstanceAs (Decidable (s.backend.shutdownRequired = false))
  | .log _ | .flush | .stopWorker | .setLevel _ | .frontend | .worker _ => .isTrue trivial

/-- **The invariant of a logger**: where its messages are, and its stage. -/
structure Sound (s₀ s : LoggerSystem env) (done flying waiting : List (LogCall env))
    (frames : List (List Byte)) : Prop where
  flow : s.Flow done flying waiting frames
  lifecycle : s.Lifecycle
  drained : s.worker.PastDrain → done = s.accepted
  built : s₀.Built s

namespace Sound

variable {s₀ : LoggerSystem env} {done flying waiting : List (LogCall env)}
  {frames : List (List Byte)}

/-- A step of the worker. -/
theorem stepWorker (h : Sound s₀ s done flying waiting frames) {now : Size}
    (hs : s.stepWorker now = some s') :
    ∃ done' flying' waiting' frames', Sound s₀ s' done' flying' waiting' frames' ∧
      done <+: done' ∧ s.WorkerKeeps s' ∧
      Goes s.backend (done = s.accepted) s.worker s'.worker s'.backend.flushCompletedSeq := by
  obtain ⟨done', flying', waiting', frames', hflow, hle, hkeeps, hgoes, -⟩ := h.flow.stepWorker hs
  refine ⟨done', flying', waiting', frames',
    ⟨hflow, h.lifecycle.stepWorker hkeeps hgoes, ?_, h.built.trans hkeeps.built⟩, hle,
    hkeeps, hgoes⟩
  intro hpast
  have hdone : done = s.accepted := (hgoes.pastDrain hpast).elim id h.drained
  have hle' : done' <+: s'.accepted := ⟨_, hflow.accepted.symm⟩
  rw [hkeeps.accepted, ← hdone] at hle' ⊢
  exact (hle.eq_of_length_le hle'.length_le).symm

/-- A call of `log`. -/
theorem beginLog (h : Sound s₀ s done flying waiting frames) (hidle : s.frontend = .idle)
    {call : LogCall env} (hs : s.beginLog call = some s') :
    ∃ waiting' frames', Sound s₀ s' done flying waiting' frames' := by
  obtain ⟨_, waiting', -, hflow, hkeeps⟩ := h.flow.beginLog hs
  refine ⟨waiting', _, hflow, ?_, ?_, h.built.trans hkeeps.built⟩
  · by_cases hrunning : s.running = true
    · have hrun : s.backend.status = .kRunning := of_decide_eq_true hrunning
      obtain ⟨hworker, hdown⟩ := h.lifecycle.inMainLoop hrun (by simp [hidle])
      exact .running (hkeeps.backend ▸ hrun)
        (hkeeps.frontend.imp_right fun hstopping => .inr hstopping.1) (hkeeps.worker ▸ hworker)
        (hkeeps.backend ▸ hdown)
    · have hsame := hkeeps.frontend.resolve_right fun hstopping => hrunning hstopping.2
      exact h.lifecycle.of_eq (congrArg _ hkeeps.backend) (hsame.trans hidle.symm) hkeeps.worker
        (congrArg _ hkeeps.backend) (hkeeps.accepted.resolve_right hrunning)
  · intro hpast
    rw [hkeeps.worker] at hpast
    have hdone := h.drained hpast
    by_cases hrunning : s.running = true
    · -- a worker in its main loop has not drained the queue for the last time
      have hloop := (h.lifecycle.inMainLoop (of_decide_eq_true hrunning)
        (by simp [hidle])).1
      cases hw : s.worker <;> rw [hw] at hpast hloop <;>
        first | exact absurd hpast id | exact absurd hloop id
    · exact hdone.trans (hkeeps.accepted.resolve_right hrunning).symm

/-- A call of `flush`. -/
theorem beginFlush (h : Sound s₀ s done flying waiting frames) (hidle : s.frontend = .idle) :
    Sound s₀ s.beginFlush done flying waiting frames := by
  have hkeeps := s.beginFlush_keeps
  refine ⟨h.flow.frontend hkeeps, ?_, ?_, h.built.trans hkeeps.built⟩
  · rw [LoggerSystem.beginFlush]
    split_ifs with hrunning
    · have hrun : s.backend.status = .kRunning := of_decide_eq_true hrunning
      obtain ⟨hloop, hdown⟩ := h.lifecycle.inMainLoop hrun (by simp [hidle])
      exact .running hrun (.inr (.inl ⟨_, rfl⟩)) hloop hdown
    · exact h.lifecycle
  · rw [hkeeps.worker, hkeeps.accepted]
    exact h.drained

/-- A call of `start_worker`. -/
theorem beginStart (h : Sound s₀ s done flying waiting frames) (hidle : s.frontend = .idle)
    (hdown : s.backend.shutdownRequired = false) (hs : s.beginStart = some s') :
    Sound s₀ s' done flying waiting frames := by
  rw [LoggerSystem.beginStart] at hs
  split_ifs at hs with hassert
  obtain rfl := Option.some.inj hs
  have hunstarted : s.worker = .unstarted := by
    cases h.lifecycle with
    | fresh _ _ hworker _ _ => exact hworker
    | starting _ hfrontend _ _ => rw [hidle] at hfrontend; cases hfrontend
    | running hstatus _ _ _ => rw [hassert.1] at hstatus; cases hstatus
    | stopping hstatus _ _ _ => rw [hassert.1] at hstatus; cases hstatus
    | stopped _ _ _ hup => rw [hdown] at hup; cases hup
  have hflying : flying = [] := by
    have hworker := h.flow.worker
    rwa [hunstarted] at hworker
  exact ⟨⟨h.flow.accepted, h.flow.counted, h.flow.sinks, h.flow.waiting, h.flow.queue, hflying⟩,
    .starting hassert.1 rfl trivial hdown, False.elim, h.built.trans ⟨rfl, rfl, rfl, rfl, rfl⟩⟩

/-- A call of `stop`. -/
theorem beginStop (h : Sound s₀ s done flying waiting frames) {terminate : Bool}
    (hfrontend : s.frontend = if terminate then .stopping else .idle) :
    Sound s₀ (s.beginStop terminate) done flying waiting frames := by
  have hkeeps := s.beginStop_keeps terminate
  have hjoin : ∀ t, s.frontend ≠ .joining t := by
    rw [hfrontend]
    cases terminate <;> simp
  refine ⟨h.flow.frontend hkeeps, ?_, ?_, h.built.trans hkeeps.built⟩
  · rw [LoggerSystem.beginStop]
    split_ifs with hrunning hterminate
    · have hrun : s.backend.status = .kRunning := of_decide_eq_true hrunning
      obtain ⟨hloop, hdown⟩ := h.lifecycle.inMainLoop hrun hjoin
      have hstarted : s.worker ≠ .unstarted := by
        intro h0
        rw [h0] at hloop
        exact hloop
      exact .stopping hrun ⟨_, rfl⟩ hstarted rfl
    · rw [hterminate, if_pos rfl] at hfrontend
      have hrun := h.lifecycle.status_of_stopping hfrontend
      exact absurd (decide_eq_true hrun) hrunning
    · rw [if_neg hterminate] at hfrontend
      exact h.lifecycle.of_eq rfl hfrontend.symm rfl rfl rfl
  · rw [hkeeps.worker, hkeeps.accepted]
    exact h.drained

/-- A step of a call. -/
theorem stepFrontend (h : Sound s₀ s done flying waiting frames) (hs : s.stepFrontend = some s') :
    Sound s₀ s' done flying waiting frames := by
  have hkeeps := stepFrontend_keeps hs
  refine ⟨h.flow.frontend hkeeps, ?_, ?_, h.built.trans hkeeps.built⟩
  · rw [LoggerSystem.stepFrontend] at hs
    cases hfrontend : s.frontend with
    | idle | terminated =>
      rw [hfrontend] at hs
      cases hs
    | starting =>
      rw [hfrontend] at hs
      obtain rfl := Option.some.inj hs
      obtain ⟨hworker, hdown⟩ := h.lifecycle.of_starting hfrontend
      exact .running rfl (.inl rfl) hworker hdown
    | flushing seq =>
      rw [hfrontend] at hs
      dsimp only at hs
      split_ifs at hs with hwait
      · exact Option.some.inj hs ▸ h.lifecycle
      · obtain rfl := Option.some.inj hs
        obtain ⟨hrun, hworker, hdown⟩ := h.lifecycle.of_flushing hfrontend
        exact .running hrun (.inl rfl) hworker hdown
    | stopping =>
      rw [hfrontend] at hs
      rw [← Option.some.inj hs]
      have hstop : Sound s₀ (s.beginStop true) done flying waiting frames := h.beginStop hfrontend
      exact hstop.lifecycle
    | joining terminate =>
      rw [hfrontend] at hs
      dsimp only at hs
      have hup := h.lifecycle.of_joining hfrontend
      split_ifs at hs with hexited hterminate
      · obtain rfl := Option.some.inj hs
        exact .stopped rfl (.inr rfl) hexited hup
      · obtain rfl := Option.some.inj hs
        exact .stopped rfl (.inl rfl) hexited hup
  · rw [hkeeps.worker, hkeeps.accepted]
    exact h.drained

/-- A call of `level`. -/
theorem setLevel (h : Sound s₀ s done flying waiting frames) (level : LogLevel) :
    Sound s₀ { s with logger := { s.logger with level } } done flying waiting frames :=
  ⟨h.flow.frontend (s.setLevel_keeps level), h.lifecycle.of_eq rfl rfl rfl rfl rfl, h.drained,
    h.built.trans (s.setLevel_keeps level).built⟩

/-- **Every step keeps the invariant**, and no message handed over is taken back. -/
theorem step (h : Sound s₀ s done flying waiting frames) {a : Action env} (hfresh : s.FreshStart a)
    (hs : s.step a = some s') :
    ∃ done' flying' waiting' frames', Sound s₀ s' done' flying' waiting' frames' ∧
      done <+: done' := by
  cases step_begins hs with
  | worker hs =>
    obtain ⟨done', flying', waiting', frames', h', hle, -, -⟩ := h.stepWorker hs
    exact ⟨done', flying', waiting', frames', h', hle⟩
  | frontend hs => exact ⟨_, _, _, _, h.stepFrontend hs, List.prefix_refl _⟩
  | log hidle hs =>
    obtain ⟨waiting', frames', h'⟩ := h.beginLog hidle hs
    exact ⟨_, _, _, _, h', List.prefix_refl _⟩
  | flush hidle => exact ⟨_, _, _, _, h.beginFlush hidle, List.prefix_refl _⟩
  | startWorker hidle hs => exact ⟨_, _, _, _, h.beginStart hidle hfresh hs, List.prefix_refl _⟩
  | stopWorker hidle => exact ⟨_, _, _, _, h.beginStop hidle, List.prefix_refl _⟩
  | setLevel hidle => exact ⟨_, _, _, _, h.setLevel _, List.prefix_refl _⟩

/-- A run. -/
theorem of_reaches (hinit : Sound s₀ s₀ [] [] [] [])
    (hrun : Reaches LoggerSystem.step FreshStart s₀ s) :
    ∃ done flying waiting frames, Sound s₀ s done flying waiting frames :=
  hrun.invariant (I := fun s => ∃ done flying waiting frames, Sound s₀ s done flying waiting frames)
    ⟨[], [], [], [], hinit⟩ fun ⟨_, _, _, _, h⟩ hfresh hs =>
      let ⟨done', flying', waiting', frames', h', _⟩ := h.step hfresh hs
      ⟨done', flying', waiting', frames', h'⟩

/-- A worker that has drained the queue has handed everything over. -/
theorem nil_of_pastDrain (h : Sound s₀ s done flying waiting frames) (hpast : s.worker.PastDrain) :
    done = s.accepted ∧ frames = [] := by
  have hdone := h.drained hpast
  have haccepted := h.flow.accepted
  rw [← hdone, eq_comm, List.append_right_eq_self, List.append_eq_nil_iff] at haccepted
  obtain ⟨-, rfl⟩ := haccepted
  exact ⟨hdone, List.forall₂_nil_left_iff.mp h.flow.waiting⟩

end Sound

/-! ## Rounds -/

/-- The logger as it is before the first start. -/
theorem sound_initial {threadId : BitVec 32} {options : FemtologOptions} {queue : SpscQueue}
    {sinks : ℕ} (hqueue : queue.HasBytes []) :
    Sound (initial env threadId options queue sinks) (initial env threadId options queue sinks)
      [] [] [] [] where
  flow :=
    { accepted := rfl
      counted := rfl
      sinks := by
        intro sink hsink
        rw [List.eq_of_mem_replicate hsink]
        exact .nil
      waiting := .nil
      queue := hqueue
      worker := rfl }
  lifecycle := .fresh rfl rfl rfl rfl rfl
  drained := False.elim
  built := .refl _

/-- **All is handed over**: the queue is empty, and every sink has got each message that was
counted, once and in order. -/
structure HandedAll (s : LoggerSystem env) : Prop where
  empty : s.logger.queue.empty = true
  counted : s.logger.enqueuedCount = BitVec.ofNat 64 s.accepted.length
  sinks : ∀ sink ∈ s.backend.sinks,
    List.Forall₂ (LogCall.Handed s.logger.threadId) s.accepted sink

/-- A worker that idles has nothing left. -/
theorem Sound.handedAll {s₀ : LoggerSystem env} {done flying waiting : List (LogCall env)}
    {frames : List (List Byte)} (h : Sound s₀ s done flying waiting frames)
    (hstatus : s.backend.status ≠ .kRunning) (hfrontend : s.frontend ≠ .starting) :
    s.HandedAll := by
  have hnil : done = s.accepted ∧ frames = [] := by
    cases h.lifecycle with
    | fresh _ _ _ _ hnone =>
      have haccepted := h.flow.accepted
      rw [hnone, eq_comm, List.append_eq_nil_iff, List.append_eq_nil_iff] at haccepted
      obtain ⟨rfl, -, rfl⟩ := haccepted
      exact ⟨hnone.symm, List.forall₂_nil_left_iff.mp h.flow.waiting⟩
    | starting _ hstarting _ _ => exact absurd hstarting hfrontend
    | running hrunning _ _ _ | stopping hrunning _ _ _ => exact absurd hrunning hstatus
    | stopped _ _ hworker _ =>
      exact h.nil_of_pastDrain (hworker ▸ trivial)
  obtain ⟨rfl, rfl⟩ := hnil
  exact ⟨h.flow.queue.empty_eq, h.flow.counted, h.flow.sinks⟩

/-- The step ends a call of `stop`, which returns at once unless the worker runs, and otherwise when
the worker has been joined. -/
def StopReturns (s : LoggerSystem env) (a : Action env) (s' : LoggerSystem env) : Prop :=
  s.step a = some s' ∧ (a = .stopWorker ∧ s'.frontend = .idle ∨
    a = .frontend ∧ ∃ terminate, s.frontend = .joining terminate)

/-- **What a round of the worker promises** in a state: a logger that runs and is not being stopped
has its worker in the main loop, and all is handed over to every registered sink when `stop`
returns. -/
structure KeepsRounds (s₀ s : LoggerSystem env) : Prop where
  inMainLoop : s.backend.status = .kRunning → (∀ terminate, s.frontend ≠ .joining terminate) →
    s.worker.InMainLoop
  stopped : ∀ {a s'}, s.StopReturns a s' →
    s'.HandedAll ∧ s'.backend.sinks.length = s₀.backend.sinks.length

/-- The worker idles when `stop` returns. -/
theorem StopReturns.idles {a : Action env} (h : s.StopReturns a s') :
    s'.backend.status ≠ .kRunning ∧ s'.frontend ≠ .starting := by
  obtain ⟨hs, ⟨rfl, hidle⟩ | ⟨rfl, terminate, hjoining⟩⟩ := h
  · cases step_begins hs with
    | stopWorker _ =>
      refine ⟨fun hstatus => ?_, by simp [hidle]⟩
      rw [beginStop] at hidle hstatus
      split_ifs at hidle hstatus with hrunning
      exact hrunning (decide_eq_true hstatus)
  · cases step_begins hs with
    | frontend hs =>
      rw [LoggerSystem.stepFrontend, hjoining] at hs
      dsimp only at hs
      split_ifs at hs
      · exact Option.some.inj hs ▸ ⟨by simp, by simp⟩
      · exact Option.some.inj hs ▸ ⟨by simp, by simp⟩

/-- **Every round delivers**, through any number of them, if `shutdown_required_` is down whenever
the worker is started. -/
theorem delivers_rounds {mem : Allocator} {threadId : BitVec 32} {options : FemtologOptions}
    {queue : SpscQueue} {sinks : ℕ}
    (hqueue : SpscQueue.reserve mem options.spscQueueSize = some queue)
    (hrun : Reaches step FreshStart (initial env threadId options queue sinks) s) :
    KeepsRounds (initial env threadId options queue sinks) s := by
  obtain ⟨done, flying, waiting, frames, h⟩ :=
    Sound.of_reaches (sound_initial (SpscQueue.hasBytes_of_reserve hqueue)) hrun
  refine ⟨fun hstatus hjoin => (h.lifecycle.inMainLoop hstatus hjoin).1, ?_⟩
  intro a s' hreturns
  have hfresh : s.FreshStart a := by
    obtain ⟨-, ⟨rfl, -⟩ | ⟨rfl, -⟩⟩ := hreturns <;> trivial
  obtain ⟨_, _, _, _, h', -⟩ := h.step hfresh hreturns.1
  obtain ⟨hstatus, hfrontend⟩ := hreturns.idles
  exact ⟨h'.handedAll hstatus hfrontend, h'.built.sinks⟩

/-- One message through a logger with two sinks, up to the return of `stop`. -/
theorem delivers_rounds_one : ∃ queue s, SpscQueue.reserve .zeroed 64#64 = some queue
    ∧ execute step (fun s a => decide (s.FreshStart a))
        (initial .wide 1#32 { spscQueueSize := 64#64, backendDequeueBufferSize := 64 } queue 2)
        ([.startWorker, .frontend, .log (.literal .kInfo [0x68, 0x69])]
          ++ List.replicate 6 (.worker 7#64) ++ .stopWorker :: List.replicate 4 (.worker 8#64))
      = some s
    ∧ s.frontend = .joining false ∧ s.worker = .exited
    ∧ KeepsRounds (initial .wide 1#32
        { spscQueueSize := 64#64, backendDequeueBufferSize := 64 } queue 2) s := by
  obtain ⟨s, hs, hpcs⟩ : ∃ s, execute step (fun s a => decide (s.FreshStart a))
      (initial .wide 1#32 { spscQueueSize := 64#64, backendDequeueBufferSize := 64 }
        { buffer := some (List.replicate 128 0), capacity := 64#64, mask := 63#64 } 2)
      ([.startWorker, .frontend, .log (.literal .kInfo [0x68, 0x69])]
        ++ List.replicate 6 (.worker 7#64) ++ .stopWorker :: List.replicate 4 (.worker 8#64))
      = some s ∧ (s.frontend, s.worker) = (.joining false, .exited) :=
    Option.map_eq_some_iff.mp (by decide +kernel)
  have hq : SpscQueue.reserve .zeroed 64#64
      = some { buffer := some (List.replicate 128 0), capacity := 64#64, mask := 63#64 } := rfl
  obtain ⟨hfrontend, hworker⟩ := Prod.mk.inj hpcs
  exact ⟨_, s, hq, hs, hfrontend, hworker,
    delivers_rounds hq (Reaches.of_execute of_decide_eq_true hs)⟩

/-- **The second round of a logger does not deliver** — the worker leaves its main loop at once, as
`shutdown_required_` is still up. -/
theorem delivers_rounds_restarted :
    ¬∀ (env : Env) (mem : Allocator) (threadId : BitVec 32) (options : FemtologOptions)
      (queue : SpscQueue) (sinks : ℕ) (s : LoggerSystem env),
      SpscQueue.reserve mem options.spscQueueSize = some queue →
      Reaches step (fun _ _ => True) (initial env threadId options queue sinks) s →
      KeepsRounds (initial env threadId options queue sinks) s := by
  intro h
  obtain ⟨s, hs, hpcs⟩ : ∃ s, execute step (fun _ _ => true)
      (initial .wide 1#32 { spscQueueSize := 64#64 }
        { buffer := some (List.replicate 128 0), capacity := 64#64, mask := 63#64 } 1)
      [.startWorker, .frontend, .stopWorker, .worker 7#64, .worker 7#64, .worker 7#64,
        .worker 7#64, .frontend, .startWorker, .frontend, .worker 8#64]
      = some s ∧ (s.backend.status, s.frontend, s.worker) = (.kRunning, .idle, .peek .drain) :=
    Option.map_eq_some_iff.mp (by decide +kernel)
  simp only [Prod.mk.injEq] at hpcs
  obtain ⟨hstatus, hfrontend, hworker⟩ := hpcs
  have hkeeps := h .wide .zeroed 1#32 { spscQueueSize := 64#64 } _ 1 s rfl
    (Reaches.of_execute (fun _ => trivial) hs)
  have hloop := hkeeps.inMainLoop hstatus (by simp [hfrontend])
  rw [hworker] at hloop
  exact hloop

end LoggerSystem

end Femtolog
