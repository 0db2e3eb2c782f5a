import Femtolog.Logging.Lifecycle

/-!
# Logging/Rounds — what holds however often the worker is started

Where the messages are (`Flow`) does not depend on `shutdown_required_`: a worker that is started
finds nothing of the last one's between the queue and the sinks, as a logger that idles has no
worker at work (`Stage`).  So the messages are tracked through any number of rounds
(`tracked_of_reaches`), also those that leave them in the queue.
-/

namespace Femtolog

variable {env : Env}

namespace LoggerSystem

variable {s s' s₀ : LoggerSystem env}

/-! ## Stages -/

/-- **The stages of a round**, whatever `shutdown_required_` says. -/
inductive Stage (s : LoggerSystem env) : Prop
  | resting (hstatus : s.backend.status ≠ .kRunning)
      (hfrontend : s.frontend = .idle ∨ s.frontend = .terminated)
      (hworker : s.worker = .unstarted ∨ s.worker = .exited)
  | starting (hstatus : s.backend.status = .kIdling) (hfrontend : s.frontend = .starting)
      (hworker : s.worker ≠ .unstarted)
  | working (hstatus : s.backend.status = .kRunning)
      (hfrontend : s.frontend ≠ .starting ∧ s.frontend ≠ .terminated)
      (hworker : s.worker ≠ .unstarted)

namespace Stage

theorem status_of_running (hrunning : s.running = true) : s.backend.status = .kRunning :=
  of_decide_eq_true hrunning

/-- A logger that runs has a worker. -/
theorem started (h : s.Stage) (hrunning : s.running = true) : s.worker ≠ .unstarted := by
  have hrun := status_of_running hrunning
  cases h with
  | resting hstatus _ _ => exact absurd hrun hstatus
  | starting hstatus _ _ =>
    rw [hrun] at hstatus
    cases hstatus
  | working _ _ hworker => exact hworker

theorem of_eq (h : s.Stage) (hstatus : s'.backend.status = s.backend.status)
    (hfrontend : s'.frontend = s.frontend) (hworker : s'.worker = s.worker) : s'.Stage := by
  cases h with
  | resting h1 h2 h3 => exact .resting (hstatus ▸ h1) (hfrontend ▸ h2) (hworker ▸ h3)
  | starting h1 h2 h3 => exact .starting (hstatus ▸ h1) (hfrontend ▸ h2) (hworker ▸ h3)
  | working h1 h2 h3 => exact .working (hstatus ▸ h1) (hfrontend ▸ h2) (hworker ▸ h3)

/-- A step of the worker. -/
theorem stepWorker (h : s.Stage) (hkeeps : s.WorkerKeeps s') {settled : Prop} {completed : Size}
    (hgoes : Goes s.backend settled s.worker s'.worker completed) : s'.Stage := by
  cases h with
  | resting _ _ hworker =>
    rcases hworker with hworker | hworker
    · rw [hworker] at hgoes
      cases hgoes
    · rw [hworker] at hgoes
      cases hgoes
  | starting hstatus hfrontend _ =>
    exact .starting (hkeeps.status ▸ hstatus) (hkeeps.frontend ▸ hfrontend) hgoes.started
  | working hstatus hfrontend _ =>
    exact .working (hkeeps.status ▸ hstatus) (hkeeps.frontend ▸ hfrontend) hgoes.started

/-- A call of `log`. -/
theorem beginLog (h : s.Stage) (hidle : s.frontend = .idle) (hkeeps : s.LogKeeps s') :
    s'.Stage := by
  rcases hkeeps.frontend with hsame | ⟨hstopping, hrunning⟩
  · exact h.of_eq (congrArg _ hkeeps.backend) (hsame.trans hidle.symm) hkeeps.worker
  · refine .working (hkeeps.backend ▸ status_of_running hrunning) ?_
      (hkeeps.worker ▸ h.started hrunning)
    rw [hstopping]
    exact ⟨by simp, by simp⟩

/-- A call of `flush`. -/
theorem beginFlush (h : s.Stage) : s.beginFlush.Stage := by
  rw [LoggerSystem.beginFlush]
  split_ifs with hrunning
  · exact .working (status_of_running hrunning) ⟨by simp, by simp⟩ (h.started hrunning)
  · exact h

/-- A call of `start_worker`. -/
theorem beginStart (hs : s.beginStart = some s') : s'.Stage := by
  rw [LoggerSystem.beginStart] at hs
  split_ifs at hs with hassert
  rw [← Option.some.inj hs]
  exact .starting hassert.1 rfl (by simp)

/-- A call of `stop`. -/
theorem beginStop (h : s.Stage) {terminate : Bool}
    (hfrontend : s.frontend = if terminate then .stopping else .idle) :
    (s.beginStop terminate).Stage := by
  rw [LoggerSystem.beginStop]
  split_ifs with hrunning hterminate
  · exact .working (status_of_running hrunning) ⟨by simp, by simp⟩ (h.started hrunning)
  · rw [hterminate, if_pos rfl] at hfrontend
    cases h with
    | resting _ h2 _ | starting _ h2 _ => simp [hfrontend] at h2
    | working hstatus _ _ => exact absurd (decide_eq_true hstatus) hrunning
  · rw [if_neg hterminate] at hfrontend
    exact h.of_eq rfl hfrontend.symm rfl

/-- A step of a call. -/
theorem stepFrontend (h : s.Stage) (hs : s.stepFrontend = some s') : s'.Stage := by
  rw [LoggerSystem.stepFrontend] at hs
  cases hfrontend : s.frontend with
  | idle | terminated =>
    rw [hfrontend] at hs
    cases hs
  | starting =>
    rw [hfrontend] at hs
    rw [← Option.some.inj hs]
    cases h with
    | resting _ h2 _ => simp [hfrontend] at h2
    | working _ h2 _ => exact absurd hfrontend h2.1
    | starting _ _ hworker => exact .working rfl ⟨by simp, by simp⟩ hworker
  | flushing seq =>
    rw [hfrontend] at hs
    dsimp only at hs
    split_ifs at hs with hwait
    · exact Option.some.inj hs ▸ h
    · rw [← Option.some.inj hs]
      cases h with
      | resting _ h2 _ | starting _ h2 _ => simp [hfrontend] at h2
      | working hstatus _ hworker => exact .working hstatus ⟨by simp, by simp⟩ hworker
  | stopping =>
    rw [hfrontend] at hs
    rw [← Option.some.inj hs]
    exact h.beginStop hfrontend
  | joining terminate =>
    rw [hfrontend] at hs
    dsimp only at hs
    split_ifs at hs with hexited hterminate
    · rw [← Option.some.inj hs]
      exact .resting (by simp) (.inr rfl) (.inr hexited)
    · rw [← Option.some.inj hs]
      exact .resting (by simp) (.inl rfl) (.inr hexited)

end Stage

/-! ## Every run -/

/-- **The messages are somewhere**, and the logger is at some stage of a round. -/
structure Tracked (s : LoggerSystem env) : Prop where
  flow : ∃ done flying waiting frames, s.Flow done flying waiting frames
  stage : s.Stage

/-- **Every step keeps track of the messages**, and the buffers and sinks it was built with. -/
theorem Tracked.step (h : s.Tracked) {a : Action env} (hs : s.step a = some s') :
    s'.Tracked ∧ s.Built s' := by
  obtain ⟨⟨done, flying, waiting, frames, hflow⟩, hstage⟩ := h
  cases step_begins hs with
  | worker hs =>
    obtain ⟨_, _, _, _, hflow', -, hkeeps, hgoes, -⟩ := hflow.stepWorker hs
    exact ⟨⟨⟨_, _, _, _, hflow'⟩, hstage.stepWorker hkeeps hgoes⟩,
      hkeeps.built⟩
  | frontend hs =>
    have hkeeps := stepFrontend_keeps hs
    exact ⟨⟨⟨_, _, _, _, hflow.frontend hkeeps⟩, hstage.stepFrontend hs⟩, hkeeps.built⟩
  | log hidle hs =>
    obtain ⟨_, _, -, hflow', hkeeps⟩ := hflow.beginLog hs
    exact ⟨⟨⟨_, _, _, _, hflow'⟩, hstage.beginLog hidle hkeeps⟩, hkeeps.built⟩
  | flush hidle =>
    have hkeeps := s.beginFlush_keeps
    exact ⟨⟨⟨_, _, _, _, hflow.frontend hkeeps⟩, hstage.beginFlush⟩, hkeeps.built⟩
  | startWorker hidle hs =>
    have hstage' := Stage.beginStart hs
    rw [beginStart] at hs
    split_ifs at hs with hassert
    rw [← Option.some.inj hs] at hstage' ⊢
    -- the last worker, if there was one, has left nothing between the queue and the sinks
    have hplain : s.worker.Plain := by
      cases hstage with
      | resting _ _ hworker => rcases hworker with hworker | hworker <;> rw [hworker] <;> trivial
      | starting _ hfrontend _ => rw [hidle] at hfrontend; cases hfrontend
      | working hstatus _ _ => rw [hassert.1] at hstatus; cases hstatus
    have hflying := (workerHas_iff hplain).mp hflow.worker
    exact ⟨⟨⟨_, _, _, _, hflow.accepted, hflow.counted, hflow.sinks, hflow.waiting, hflow.queue,
      hflying⟩, hstage'⟩, ⟨rfl, rfl, rfl, rfl, rfl⟩⟩
  | stopWorker hidle =>
    have hkeeps := s.beginStop_keeps false
    exact ⟨⟨⟨_, _, _, _, hflow.frontend hkeeps⟩, hstage.beginStop hidle⟩, hkeeps.built⟩
  | setLevel hidle =>
    have hkeeps := s.setLevel_keeps ‹LogLevel›
    exact ⟨⟨⟨_, _, _, _, hflow.frontend hkeeps⟩, hstage.of_eq rfl rfl rfl⟩, hkeeps.built⟩

/-- The logger as it is before the first start. -/
theorem tracked_initial {threadId : BitVec 32} {options : FemtologOptions} {queue : SpscQueue}
    {sinks : ℕ} (hqueue : queue.HasBytes []) :
    (initial env threadId options queue sinks).Tracked where
  flow := ⟨[], [], [], [], (sound_initial hqueue).flow⟩
  stage := .resting (by simp [initial]) (.inl rfl) (.inl rfl)

/-- **A run of any number of rounds.** -/
theorem tracked_of_reaches (h : s₀.Tracked) {guard : LoggerSystem env → Action env → Prop}
    (hrun : Reaches step guard s₀ s) : s.Tracked ∧ s₀.Built s :=
  hrun.invariant (I := fun s => s.Tracked ∧ s₀.Built s) ⟨h, .refl s₀⟩ fun h _ hs =>
    ⟨(h.1.step hs).1, h.2.trans (h.1.step hs).2⟩

/-- **A logger that has started a worker has sinks**, as `start` asserts. -/
theorem sinks_ne_nil_of_reaches (h : s₀.Tracked) (hfresh : s₀.worker = .unstarted)
    {guard : LoggerSystem env → Action env → Prop} (hrun : Reaches step guard s₀ s)
    (hstarted : s.worker ≠ .unstarted) : s.backend.sinks ≠ [] := by
  refine (hrun.invariant
    (I := fun s => s.Tracked ∧ (s.worker ≠ .unstarted → s.backend.sinks ≠ []))
    ⟨h, fun hstarted => absurd hfresh hstarted⟩ fun {s s' a} ⟨htracked, hsinks⟩ _ hs => ?_).2
    hstarted
  obtain ⟨htracked', hbuilt⟩ := htracked.step hs
  refine ⟨htracked', fun hstarted => ?_⟩
  have hsome : s.backend.sinks ≠ [] → s'.backend.sinks ≠ [] := fun hne => by
    rw [← List.length_pos_iff, hbuilt.sinks]
    exact List.length_pos_iff.mpr hne
  cases step_begins hs with
  | worker hs =>
    refine hsome (hsinks fun hunstarted => ?_)
    rw [stepWorker, hunstarted] at hs
    cases hs
  | frontend hs => exact hsome (hsinks ((stepFrontend_keeps hs).worker ▸ hstarted))
  | log _ hs =>
    obtain ⟨done, flying, waiting, frames, hflow⟩ := htracked.flow
    obtain ⟨_, _, -, -, hkeeps⟩ := hflow.beginLog hs
    exact hsome (hsinks (hkeeps.worker ▸ hstarted))
  | flush _ => exact hsome (hsinks (s.beginFlush_keeps.worker ▸ hstarted))
  | startWorker _ hs =>
    rw [beginStart] at hs
    split_ifs at hs with hassert
    exact hsome hassert.2
  | stopWorker _ => exact hsome (hsinks ((s.beginStop_keeps false).worker ▸ hstarted))
  | setLevel _ => exact hsinks hstarted

end LoggerSystem

end Femtolog
