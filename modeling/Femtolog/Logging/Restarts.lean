import Femtolog.Logging.Fatal

/-!
# Logging/Restarts — what a restarted worker still delivers

A worker that is started again drains the queue once and leaves, so the messages of its own round
may stay in the queue.  Those from before its start do not: whatever else is called, a later `stop`
has handed them to every sink, in order and once (`stop_delivers_earlier`).  A message is late by
one round at most.
-/

namespace Femtolog

variable {env : Env}

namespace LoggerSystem

variable {s s' t : LoggerSystem env} {before : List (LogCall env)}

/-- **The calls `before` are handed over when the worker has drained the queue**, or have been
already. -/
structure Drained (before : List (LogCall env)) (s : LoggerSystem env) : Prop where
  stage : s.Stage
  started : s.worker ≠ .unstarted
  accepted : before <+: s.accepted
  flow : ∃ done flying waiting frames, s.Flow done flying waiting frames ∧
    (s.worker.PastDrain → before <+: done)

/-- The start of a worker. -/
theorem Tracked.drained (h : s.Tracked) (hs : s.step .startWorker = some s') :
    s'.Drained s.accepted := by
  obtain ⟨⟨hflow, hstage⟩, -⟩ := h.step hs
  cases step_begins hs with
  | startWorker _ hs =>
    rw [beginStart] at hs
    split_ifs at hs
    rw [← Option.some.inj hs] at hflow hstage ⊢
    obtain ⟨done, flying, waiting, frames, hflow⟩ := hflow
    exact ⟨hstage, by simp, List.prefix_refl _, done, flying, waiting, frames, hflow, False.elim⟩

namespace Drained

/-- Fewer calls. -/
theorem mono {earlier : List (LogCall env)} (h : s.Drained before) (hle : earlier <+: before) :
    s.Drained earlier := by
  obtain ⟨done, flying, waiting, frames, hflow, hdrained⟩ := h.flow
  exact ⟨h.stage, h.started, hle.trans h.accepted, _, _, _, _, hflow,
    fun hpast => hle.trans (hdrained hpast)⟩

/-- A step of the worker. -/
theorem stepWorker (h : s.Drained before) {now : Size} (hs : s.stepWorker now = some s') :
    s'.Drained before := by
  obtain ⟨done, flying, waiting, frames, hflow, hdrained⟩ := h.flow
  obtain ⟨done', _, _, _, hflow', hle, hkeeps, hgoes, -⟩ := hflow.stepWorker hs
  refine ⟨h.stage.stepWorker hkeeps hgoes, hgoes.started, hkeeps.accepted ▸ h.accepted, done', _,
    _, _, hflow', fun hpast => ?_⟩
  rcases hgoes.pastDrain hpast with hsettled | hpast
  · exact (hsettled ▸ h.accepted).trans hle
  · exact (hdrained hpast).trans hle

/-- What concerns neither the worker nor its messages. -/
theorem frontend (h : s.Drained before) (hkeeps : s.FrontendKeeps s') (hstage : s'.Stage) :
    s'.Drained before := by
  obtain ⟨done, flying, waiting, frames, hflow, hdrained⟩ := h.flow
  refine ⟨hstage, hkeeps.worker ▸ h.started, hkeeps.accepted ▸ h.accepted, _, _, _, _,
    hflow.frontend hkeeps, ?_⟩
  rw [hkeeps.worker]
  exact hdrained

/-- **Every step keeps it**, also the start of the next worker. -/
theorem step (h : s.Drained before) {a : Action env} (hs : s.step a = some s') :
    s'.Drained before := by
  obtain ⟨done, flying, waiting, frames, hflow, hdrained⟩ := h.flow
  have htracked : s.Tracked := ⟨⟨_, _, _, _, hflow⟩, h.stage⟩
  have hstage' := (htracked.step hs).1.stage
  cases step_begins hs with
  | worker hs => exact h.stepWorker hs
  | frontend hs => exact h.frontend (stepFrontend_keeps hs) hstage'
  | flush _ => exact h.frontend s.beginFlush_keeps hstage'
  | stopWorker _ => exact h.frontend (s.beginStop_keeps false) hstage'
  | setLevel _ => exact h.frontend (s.setLevel_keeps _) hstage'
  | log _ hs =>
    obtain ⟨result, _, hresult, hflow', hkeeps⟩ := hflow.beginLog hs
    obtain ⟨_, -, hmore, -⟩ := exists_result hs
    refine ⟨hstage', hkeeps.worker ▸ h.started, h.accepted.trans hmore, _, _, _, _, hflow', ?_⟩
    rw [hkeeps.worker]
    exact hdrained
  | startWorker _ _ => exact (htracked.drained hs).mono h.accepted

/-- A worker that idles after its start has left. -/
theorem prefix_of_idling (h : s.Drained before) (hstatus : s.backend.status ≠ .kRunning)
    (hfrontend : s.frontend ≠ .starting) :
    ∀ sink ∈ s.backend.sinks, ∃ handed,
      List.Forall₂ (LogCall.Handed s.logger.threadId) handed sink ∧ before <+: handed ∧
        handed <+: s.accepted := by
  have hexited : s.worker = .exited := by
    cases h.stage with
    | resting _ _ hworker => exact hworker.resolve_left h.started
    | starting _ hstarting _ => exact absurd hstarting hfrontend
    | working hrunning _ _ => exact absurd hrunning hstatus
  obtain ⟨done, flying, waiting, frames, hflow, hdrained⟩ := h.flow
  exact fun sink hsink =>
    ⟨done, hflow.sinks sink hsink, hdrained (hexited ▸ trivial), ⟨_, hflow.accepted.symm⟩⟩

end Drained

/-- **A stop delivers what is older than a start before it** — to every sink, in the order of the
calls and once — however often the worker has been started and stopped. -/
theorem stop_delivers_earlier {mem : Allocator} {threadId : BitVec 32} {options : FemtologOptions}
    {queue : SpscQueue} {sinks : ℕ}
    (hqueue : SpscQueue.reserve mem options.spscQueueSize = some queue)
    (hrun : Reaches step (fun _ _ => True) (initial env threadId options queue sinks) s)
    (hstart : s.step .startWorker = some s') (hrun' : Reaches step (fun _ _ => True) s' t)
    {a : Action env} {t' : LoggerSystem env} (hreturns : t.StopReturns a t') :
    t'.backend.sinks.length = sinks ∧ ∀ sink ∈ t'.backend.sinks, ∃ handed,
      List.Forall₂ (LogCall.Handed threadId) handed sink ∧ s.accepted <+: handed ∧
        handed <+: t'.accepted := by
  have htracked₀ : (initial env threadId options queue sinks).Tracked :=
    tracked_initial (SpscQueue.hasBytes_of_reserve hqueue)
  obtain ⟨htracked, -⟩ := tracked_of_reaches htracked₀ hrun
  have hdrained : t'.Drained s.accepted :=
    (hrun'.tail (a := a) trivial hreturns.1).invariant (htracked.drained hstart)
      fun h _ hs => h.step hs
  obtain ⟨hstatus, hfrontend⟩ := hreturns.idles
  obtain ⟨-, hbuilt⟩ := tracked_of_reaches htracked₀
    (((hrun.tail (a := .startWorker) trivial hstart).trans hrun').tail (a := a) trivial hreturns.1)
  have hsinks := hdrained.prefix_of_idling hstatus hfrontend
  rw [hbuilt.threadId] at hsinks
  exact ⟨hbuilt.sinks.trans List.length_replicate, hsinks⟩

/-- A message of a second round, which no worker takes, is delivered in the third. -/
theorem stop_delivers_earlier_third : ∃ (queue : SpscQueue) (s t t' : LoggerSystem .wide),
    SpscQueue.reserve .zeroed 64#64 = some queue ∧
    Reaches step (fun _ _ => True) (initial .wide 1#32
      { spscQueueSize := 64#64, backendDequeueBufferSize := 64 } queue 1) s ∧
    s.accepted.length = 1 ∧ s.backend.sinks = [[]] ∧ t.StopReturns .frontend t' ∧
    ∀ sink ∈ t'.backend.sinks, ∃ handed,
      List.Forall₂ (LogCall.Handed 1#32) handed sink ∧ s.accepted <+: handed ∧
        handed <+: t'.accepted := by
  obtain ⟨⟨s, s', t, t'⟩, hs, hpcs⟩ :
      ∃ p : LoggerSystem .wide × LoggerSystem .wide × LoggerSystem .wide × LoggerSystem .wide,
      ((execute step (fun _ _ => true)
          (initial .wide 1#32 { spscQueueSize := 64#64, backendDequeueBufferSize := 64 }
            { buffer := some (List.replicate 128 0), capacity := 64#64, mask := 63#64 } 1)
          ([.startWorker, .frontend, .stopWorker] ++ List.replicate 4 (.worker 7#64)
            ++ [.frontend, .startWorker, .frontend] ++ List.replicate 4 (.worker 8#64)
            ++ [.log (.literal .kInfo [0x68, 0x69]), .stopWorker, .frontend])).bind fun s =>
        (s.step .startWorker).bind fun s' =>
          (execute step (fun _ _ => true) s'
            (.frontend :: List.replicate 7 (.worker 9#64) ++ [.stopWorker])).bind fun t =>
              (t.step .frontend).map fun t' => (s, s', t, t')) = some p ∧
      (p.1.accepted.length, p.1.backend.sinks, p.2.2.1.frontend) = (1, [[]], .joining false) :=
    Option.map_eq_some_iff.mp (by decide +kernel)
  obtain ⟨_, hrun, hs⟩ := Option.bind_eq_some_iff.mp hs
  obtain ⟨_, hstart, hs⟩ := Option.bind_eq_some_iff.mp hs
  obtain ⟨_, hrun', hs⟩ := Option.bind_eq_some_iff.mp hs
  obtain ⟨_, hstop, hs⟩ := Option.map_eq_some_iff.mp hs
  simp only [Prod.mk.injEq] at hs hpcs
  obtain ⟨rfl, rfl, rfl, rfl⟩ := hs
  obtain ⟨haccepted, hsinks, hjoining⟩ := hpcs
  have hq : SpscQueue.reserve .zeroed 64#64
      = some { buffer := some (List.replicate 128 0), capacity := 64#64, mask := 63#64 } := rfl
  have hreaches : Reaches step (fun _ _ => True) _ _ := Reaches.of_execute (fun _ => trivial) hrun
  have hreturns : StopReturns _ .frontend _ := ⟨hstop, .inr ⟨rfl, _, hjoining⟩⟩
  exact ⟨_, _, _, _, hq, hreaches, haccepted, hsinks, hreturns,
    (stop_delivers_earlier hq hreaches hstart
      (Reaches.of_execute (fun _ => trivial) hrun') hreturns).2⟩

end LoggerSystem

end Femtolog
