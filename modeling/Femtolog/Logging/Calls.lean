import Femtolog.Logging.Returns

/-!
# Logging/Calls — every call of a session comes to its end

In a session of one worker the frontend waits in `start`, `flush`, `stop`, or in `stop` on the way
to `std::terminate`.  Each of them ends under every fair schedule (`calls_end`), if the dequeue
buffer takes the longest entry: and then a flush has passed on all that was accepted, and a stop has
handed it over and left the queue empty.
-/

namespace Femtolog

variable {env : Env}

namespace LoggerSystem

variable {s₀ s s' : LoggerSystem env}

/-! ## Joining the worker -/

/-- **The frontend joins a worker** that can empty the queue. -/
structure Joining (s : LoggerSystem env) : Prop where
  clear : ∃ done flying waiting frames, s.Flow done flying waiting frames ∧ s.Clear frames
  started : s.worker ≠ .unstarted
  up : s.backend.shutdownRequired = true
  frontend : ∃ terminate, s.frontend = .joining terminate

/-- The frontend is in no call any more. -/
def Settled (s : LoggerSystem env) : Prop := s.frontend = .idle ∨ s.frontend = .terminated

namespace Joining

theorem not_idle (h : s.Joining) : s.frontend ≠ .idle := by
  obtain ⟨terminate, hfrontend⟩ := h.frontend
  rw [hfrontend]
  exact nofun

/-- The worker's steps bring it nearer to its end. -/
theorem stepWorker (h : s.Joining) {now : Size} (hs : s.stepWorker now = some s') :
    s'.Joining ∧ s'.worker.rank s'.logger.queue.size.toNat
      < s.worker.rank s.logger.queue.size.toNat := by
  obtain ⟨_, _, _, _, hflow, hclear⟩ := h.clear
  obtain ⟨_, _, _, _, hflow', -, hkeeps, hgoes, htakes⟩ := hflow.stepWorker hs
  obtain ⟨hle, hlt⟩ := htakes.size_le hflow hflow'
  obtain ⟨_, _, _, _, hflow'', hiff⟩ := hflow.clear_stepWorker hs
  obtain ⟨terminate, hfrontend⟩ := h.frontend
  exact ⟨⟨⟨_, _, _, _, hflow'', hiff.mpr hclear⟩, hgoes.started, hkeeps.shutdown.trans h.up,
    terminate, hkeeps.frontend.trans hfrontend⟩, hgoes.rank_lt h.up hle hlt⟩

/-- The frontend joins a worker that has left. -/
theorem stepFrontend (h : s.Joining) : (s.worker = .exited → ∃ s', s.stepFrontend = some s') ∧
    ∀ s', s.stepFrontend = some s' → s'.Settled := by
  obtain ⟨terminate, hfrontend⟩ := h.frontend
  rw [LoggerSystem.stepFrontend, hfrontend]
  dsimp only
  refine ⟨fun hexited => ⟨_, if_pos hexited⟩, fun s' hs => ?_⟩
  split_ifs at hs with hexited hterminate
  · exact Option.some.inj hs ▸ .inr rfl
  · exact Option.some.inj hs ▸ .inl rfl

/-- The thread that has to act next. -/
def actsNext (s : LoggerSystem env) : Thread := if s.worker = .exited then .frontend else .worker

/-- **The stop returns** under every fair schedule. -/
theorem eventually (h : s.Joining) {schedule : ℕ → Action env}
    (hfair : Fair Thread.Turn schedule) : ∃ n, (turns step schedule s n).Settled := by
  refine hfair.eventually Joining Settled
    (fun s => s.worker.rank s.logger.queue.size.toNat) actsNext ?_ ?_ h
  · intro s s' a h _ hs
    cases step_begins hs with
    | worker hs => exact .inr ((h.stepWorker hs).imp_right .inl)
    | frontend hs => exact .inl (h.stepFrontend.2 _ hs)
    | log hidle _ | flush hidle | startWorker hidle _ | stopWorker hidle | setLevel hidle =>
      exact absurd hidle h.not_idle
  · intro s a h _ hturn
    rw [actsNext] at hturn
    split_ifs at hturn with hexited
    · cases a with
      | frontend =>
        obtain ⟨s', hs⟩ := h.stepFrontend.1 hexited
        exact ⟨s', hs, .inl (h.stepFrontend.2 s' hs)⟩
      | _ => exact absurd hturn id
    · cases a with
      | worker now =>
        obtain ⟨_, _, _, _, hflow, hclear⟩ := h.clear
        obtain ⟨s', hs⟩ := hflow.clear_works hclear h.started hexited now
        exact ⟨s', hs, .inr (h.stepWorker hs).2⟩
      | _ => exact absurd hturn id

end Joining

/-! ## What a call does -/

/-- **What a step of the frontend does to its call**: it stays in it, goes on from the flag to the
join, or ends it. -/
inductive CallStep : FrontendPc → FrontendPc → Prop
  | started : CallStep .starting .idle
  | waits {seq : Size} : CallStep (.flushing seq) (.flushing seq)
  | flushed {seq : Size} : CallStep (.flushing seq) .idle
  | joins : CallStep .stopping (.joining true)
  | stopped {terminate : Bool} :
    CallStep (.joining terminate) (if terminate then .terminated else .idle)

/-- The frontend stops a worker that runs. -/
theorem Lifecycle.callStep (h : s.Lifecycle) (hs : s.stepFrontend = some s') :
    CallStep s.frontend s'.frontend := by
  rw [LoggerSystem.stepFrontend] at hs
  cases hfrontend : s.frontend with
  | idle | terminated =>
    rw [hfrontend] at hs
    cases hs
  | starting =>
    rw [hfrontend] at hs
    exact Option.some.inj hs ▸ .started
  | flushing seq =>
    rw [hfrontend] at hs
    dsimp only at hs
    split_ifs at hs
    · rw [← Option.some.inj hs, hfrontend]
      exact .waits
    · exact Option.some.inj hs ▸ .flushed
  | stopping =>
    rw [hfrontend] at hs
    dsimp only at hs
    have hrunning : s.running = true := decide_eq_true (h.status_of_stopping hfrontend)
    rw [beginStop, if_pos hrunning] at hs
    exact Option.some.inj hs ▸ .joins
  | joining terminate =>
    rw [hfrontend] at hs
    dsimp only at hs
    by_cases hexited : s.worker = .exited
    · rw [if_pos hexited] at hs
      exact Option.some.inj hs ▸ .stopped
    · rw [if_neg hexited] at hs
      cases hs

/-- The frontend is about to stop the worker, or joins it. -/
def Stops (s : LoggerSystem env) : Prop :=
  s.frontend = .stopping ∨ ∃ terminate, s.frontend = .joining terminate

/-- **`t` is in the call that `s` is in**: nothing has been accepted meanwhile. -/
structure InCall (s₀ s t : LoggerSystem env) : Prop where
  sound : ∃ done flying waiting frames, Sound s₀ t done flying waiting frames ∧
    t.Barrier done.length
  accepted : t.accepted = s.accepted
  flushing : ∀ seq, s.frontend = .flushing seq → t.frontend = .flushing seq
  stops : s.Stops → t.Stops
  open_ : ¬t.Settled

/-- **What the end of a call is worth** — a call that began in `s` and has ended in `t`. -/
structure Ends (s t : LoggerSystem env) : Prop where
  settled : t.Settled
  accepted : t.accepted = s.accepted
  flushed : ∀ seq, s.frontend = .flushing seq → t.Passed t.accepted.length
  stopped : s.Stops → t.HandedAll

namespace InCall

variable {t t' : LoggerSystem env}

/-- **A step goes on with the call or ends it** with what it is worth. -/
theorem step (h : InCall s₀ s t) {a : Action env} (hs : t.step a = some t') :
    s.Ends t' ∨ InCall s₀ s t' := by
  obtain ⟨done, flying, waiting, frames, hsound, hbarrier⟩ := h.sound
  have hbusy : t.frontend ≠ .idle := fun hidle => h.open_ (.inl hidle)
  cases step_begins hs with
  | worker hs =>
    obtain ⟨_, _, _, _, hsound', hle, hkeeps, hgoes⟩ := hsound.stepWorker hs
    have hsame := hkeeps.frontend
    refine .inr ⟨⟨_, _, _, _, hsound', hbarrier.stepWorker hsound hle hkeeps hgoes⟩,
      hkeeps.accepted.trans h.accepted, ?_, ?_, ?_⟩
    · exact fun seq hseq => hsame.trans (h.flushing seq hseq)
    · intro hstop
      rw [Stops, hsame]
      exact h.stops hstop
    · rw [Settled, hsame]
      exact h.open_
  | frontend hs =>
    have hsound' := hsound.stepFrontend hs
    have hbarrier' := hbarrier.stepFrontend hs
    have haccepted := (stepFrontend_keeps hs).accepted.trans h.accepted
    have hcall := hsound.lifecycle.callStep hs
    -- a call of `flush` stays one, and a call of `stop`
    have hflushing : ∀ {pc}, t.frontend = pc → ∀ seq, s.frontend = .flushing seq →
        pc = .flushing seq := fun hpc seq hseq => hpc.symm.trans (h.flushing seq hseq)
    have hstops : ∀ {pc}, t.frontend = pc → s.Stops →
        pc = .stopping ∨ ∃ terminate, pc = .joining terminate :=
      fun hpc hstop => hpc ▸ h.stops hstop
    generalize hpc : t.frontend = pc at hcall
    generalize hpc' : t'.frontend = pc' at hcall
    cases hcall with
    | started =>
      refine .inl ⟨.inl hpc', haccepted, fun seq hseq => ?_, fun hstop => ?_⟩
      · cases hflushing hpc seq hseq
      · rcases hstops hpc hstop with hstop | ⟨_, hstop⟩ <;> cases hstop
    | waits =>
      refine .inr ⟨⟨_, _, _, _, hsound', hbarrier'⟩, haccepted,
        fun seq hseq => hpc'.trans (hflushing hpc seq hseq), fun hstop => ?_, ?_⟩
      · rcases hstops hpc hstop with hstop | ⟨_, hstop⟩ <;> cases hstop
      · rw [Settled, hpc']
        simp
    | @flushed seq =>
      have hreturns : t.FlushReturns .frontend t' := ⟨hs, hpc', .inr ⟨rfl, seq, hpc⟩⟩
      refine .inl ⟨.inl hpc', haccepted, fun _ _ => hbarrier.returned hsound hreturns,
        fun hstop => ?_⟩
      rcases hstops hpc hstop with hstop | ⟨_, hstop⟩ <;> cases hstop
    | joins =>
      refine .inr ⟨⟨_, _, _, _, hsound', hbarrier'⟩, haccepted, fun seq hseq => ?_,
        fun _ => .inr ⟨true, hpc'⟩, ?_⟩
      · cases hflushing hpc seq hseq
      · rw [Settled, hpc']
        simp
    | @stopped terminate =>
      have hreturns : t.StopReturns .frontend t' := ⟨hs, .inr ⟨rfl, terminate, hpc⟩⟩
      obtain ⟨hstatus, hfrontend⟩ := hreturns.idles
      refine .inl ⟨?_, haccepted, fun seq hseq => ?_, fun _ => hsound'.handedAll hstatus hfrontend⟩
      · rw [Settled, hpc']
        cases terminate <;> simp
      · cases hflushing hpc seq hseq
  | log hidle _ | flush hidle | startWorker hidle _ | stopWorker hidle | setLevel hidle =>
    exact absurd hidle hbusy

/-- **The end of the call is worth it**, if it comes at all. -/
theorem ends (h : InCall s₀ s s) {schedule : ℕ → Action env}
    (hends : ∃ n, (turns LoggerSystem.step schedule s n).Settled) :
    ∃ n, s.Ends (turns LoggerSystem.step schedule s n) := by
  obtain ⟨n, hsettled⟩ := hends
  have hkeep : ∀ {t t' : LoggerSystem env} {a : Action env}, InCall s₀ s t → ¬t.Settled →
      t.step a = some t' → t'.Settled ∨ InCall s₀ s t' :=
    fun h _ hs => (h.step hs).imp_left Ends.settled
  obtain ⟨m, t, a, ht, -, hs, hend⟩ := exists_last_step hkeep h h.open_ hsettled
  refine ⟨m, (ht.step hs).resolve_right fun h' => h'.open_ hend⟩

end InCall

/-! ## Every call ends -/

/-- `start` is one step away from its end. -/
theorem Tracked.starting_ends (h : s.Tracked) (hfrontend : s.frontend = .starting)
    {schedule : ℕ → Action env} (hfair : Fair Thread.Turn schedule) :
    ∃ n, (turns LoggerSystem.step schedule s n).Settled := by
  refine hfair.eventually (fun s => s.Tracked ∧ s.frontend = .starting) Settled (fun _ => 0)
    (fun _ => Thread.frontend) ?_ ?_ ⟨h, hfrontend⟩
  · rintro s s' a ⟨h, hfrontend⟩ _ hs
    have h' := (h.step hs).1
    cases step_begins hs with
    | worker hs =>
      obtain ⟨_, _, _, _, hflow⟩ := h.flow
      obtain ⟨_, _, _, _, -, -, hkeeps, -⟩ := hflow.stepWorker hs
      exact .inr ⟨⟨h', hkeeps.frontend.trans hfrontend⟩, .inr ⟨rfl, rfl⟩⟩
    | frontend hs =>
      rw [LoggerSystem.stepFrontend, hfrontend] at hs
      exact .inl (Option.some.inj hs ▸ .inl rfl)
    | log hidle _ | flush hidle | startWorker hidle _ | stopWorker hidle | setLevel hidle =>
      rw [hfrontend] at hidle
      cases hidle
  · rintro s a ⟨-, hfrontend⟩ _ hturn
    cases a with
    | frontend =>
      rw [LoggerSystem.step, LoggerSystem.stepFrontend, hfrontend]
      exact ⟨_, rfl, .inl (.inl rfl)⟩
    | _ => exact absurd hturn id

/-- A worker in its main loop has been started, and is still to read the request numbers. -/
theorem not_abandoned (hloop : s.worker.InMainLoop) (seq : Size) :
    s.worker ≠ .unstarted ∧ ¬s.Abandoned seq := by
  refine ⟨fun hpc => ?_, ?_⟩
  · rw [hpc] at hloop
    exact hloop
  · rintro (hpc | ⟨req, hpc, -⟩) <;> rw [hpc] at hloop <;> exact hloop

/-- **The call under way comes to its end** in a session whose worker can empty the queue. -/
theorem Sound.settles {done flying waiting : List (LogCall env)} {frames : List (List Byte)}
    (h : Sound s₀ s done flying waiting frames) (hbarrier : s.Barrier done.length)
    (hrequests : s.Requests) (htracked : s.Tracked) (hdrains : s.Drains frames)
    {schedule : ℕ → Action env} (hfair : Fair Thread.Turn schedule) :
    ∃ n, (turns LoggerSystem.step schedule s n).Settled := by
  cases hfrontend : s.frontend with
  | idle => exact ⟨0, .inl hfrontend⟩
  | terminated => exact ⟨0, .inr hfrontend⟩
  | starting => exact htracked.starting_ends hfrontend hfair
  | flushing seq =>
    obtain ⟨-, hloop, -⟩ := h.lifecycle.of_flushing hfrontend
    obtain ⟨hstarted, hread⟩ := not_abandoned hloop seq
    have hseq : s.backend.flushRequestedSeq = seq :=
      BitVec.eq_of_toNat_eq (hrequests.counts.trans (hbarrier.flushing hfrontend).1.symm)
    have hawaiting : s.Awaiting seq :=
      ⟨⟨_, _, _, _, h.flow, .inr hdrains⟩, hrequests, hseq, hfrontend, hstarted, fun _ => hread⟩
    obtain ⟨n, hidle⟩ := hawaiting.eventually hfair
    exact ⟨n, .inl hidle⟩
  | stopping =>
    have hterminating : s.Terminating s.accepted :=
      ⟨⟨_, _, _, _, h.flow, fun hpast => h.drained hpast ▸ List.prefix_refl _⟩,
        ⟨_, _, _, _, h.flow, .inr hdrains⟩, htracked.stage, List.prefix_refl _, .inl hfrontend⟩
    obtain ⟨n, hend⟩ := hterminating.eventually hfair
    exact ⟨n, .inr hend⟩
  | joining terminate =>
    have hstarted : s.worker ≠ .unstarted := by
      cases htracked.stage with
      | resting _ hf _ | starting _ hf _ => simp [hfrontend] at hf
      | working _ _ hstarted => exact hstarted
    have hjoining : s.Joining :=
      ⟨⟨_, _, _, _, h.flow, .inr hdrains⟩, hstarted, h.lifecycle.of_joining hfrontend, terminate,
        hfrontend⟩
    exact hjoining.eventually hfair

end LoggerSystem

end Femtolog
