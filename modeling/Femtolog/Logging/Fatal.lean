import Mathlib.Data.Prod.Lex
import Femtolog.Foundations.Schedules
import Femtolog.Logging.Drain

/-!
# Logging/Fatal — a fatal message and the end of the program

With `terminate_on_fatal_`, `enqueue_log_entry` stops the worker after a fatal message and calls
`std::terminate`.  The three checks before it return early: a fatal message that is too long is
dropped, and the program goes on.  Any other leads to the end, under every fair schedule of the two
threads, with all messages accepted before it handed over, if the worker is still to drain the queue
and its buffer takes what lies there (`fatal_terminates_iff`).
-/

namespace Femtolog

variable {env : Env}

/-! ## Which calls terminate -/

namespace InternalLogger

variable {l : InternalLogger} {running : Bool} {call : LogCall env} {b : List Byte}

/-- A long message is dropped before its level is looked at. -/
theorem log_of_long (hpass : l.Passes running call)
    (hlong : ¬call.messageSize < kMaxPayloadSize) {result : LogResult}
    (h : l.log running call = some result) : result.terminate = false := by
  have hrunning : ¬(!running) = true := by rw [hpass.2]; decide
  rw [log, if_neg hpass.1, if_neg hrunning] at h
  rw [LogCall.messageSize, Nat.not_lt] at hlong
  split_ifs at h hlong with hargs
  · rw [← Option.some.inj h, logLiteral, dif_pos hlong]
    rfl
  · obtain ⟨serialized, hserialize, rfl⟩ := Option.map_eq_some_iff.mp h
    rw [logSerialized, dif_pos]
    · rfl
    · rcases size_of_serialize call.strings hserialize with hsize | hgiven
      · exact .inl (hsize ▸ hlong)
      · exact .inr hgiven.1

/-- **A fatal call terminates exactly if its message is short.** -/
theorem terminate_log (hq : l.queue.HasBytes b) (hpass : l.Passes running call)
    (hfatal : call.level = .kFatal) (hterminate : l.terminateOnFatal = true) {result : LogResult}
    (h : l.log running call = some result) :
    result.terminate = true ↔ call.messageSize < kMaxPayloadSize := by
  by_cases hshort : call.messageSize < kMaxPayloadSize
  · obtain ⟨result', frame, hresult, hframe⟩ := log_of_short hq hpass hshort
    obtain rfl := Option.some.inj (h.symm.trans hresult)
    refine iff_of_true ?_ hshort
    rw [hframe.terminate, hfatal, hterminate]
    rfl
  · exact iff_of_false (by rw [log_of_long hpass hshort h]; decide) hshort

end InternalLogger

/-! ## The worker's way to its end -/

/-- How many steps the worker can take until it leaves, with `n` bytes in the queue, once
`shutdown_required_` is up. -/
def WorkerPc.rank (n : ℕ) : WorkerPc → ℕ
  | .unstarted | .exited => 0
  | .storeFinal _ => 1
  | .drained => 2
  | .dequeue .drain _ => 2 + 3 * n
  | .peek .drain => 3 + 3 * n
  | .process .drain | .loadShutdown => 4 + 3 * n
  | .process .main => 5 + 3 * n
  | .dequeue .main _ => 6 + 3 * n
  | .peek .main => 7 + 3 * n
  | .storeCompleted _ | .dequeue (.flush _) _ => 8 + 3 * n
  | .peek (.flush _) => 9 + 3 * n
  | .process (.flush _) => 10 + 3 * n
  | .loadCompleted _ => 11 + 3 * n
  | .loadRequested => 12 + 3 * n

/-- **Every move with the flag up is a move towards the end**, if a dequeue takes something. -/
theorem Goes.rank_lt {b : BackendWorker} {settled : Prop} {pc pc' : WorkerPc} {completed : Size}
    (h : Goes b settled pc pc' completed) (hup : b.shutdownRequired = true) {n n' : ℕ}
    (hle : n' ≤ n) (htakes : (∃ c payloadLen, pc = .dequeue c payloadLen) → n' < n) :
    pc'.rank n' < pc.rank n := by
  cases h with
  | goOn hdown => simp [hup] at hdown
  | shutdown _ | requested | due _ | notDue _ | completed | drained | final =>
    simp only [WorkerPc.rank]
    omega
  | @found c _ | @empty c _ | @handed c =>
    cases c <;> simp only [WorkerPc.rank, Caller.failed, Caller.succeeded] <;> omega
  | @taken c payloadLen =>
    have hlt := htakes ⟨c, payloadLen, rfl⟩
    cases c <;> simp only [WorkerPc.rank] <;> omega

namespace LoggerSystem

variable {s s' : LoggerSystem env} {done flying waiting : List (LogCall env)}
  {frames : List (List Byte)} {before : List (LogCall env)}

/-- A step of the worker leaves the frames in the queue, or takes one. -/
theorem Takes.size_le {done' flying' waiting' : List (LogCall env)} {frames' : List (List Byte)}
    (htakes : s.Takes s' frames frames') (h : s.Flow done flying waiting frames)
    (h' : s'.Flow done' flying' waiting' frames') :
    s'.logger.queue.size.toNat ≤ s.logger.queue.size.toNat ∧
      ((∃ c payloadLen, s.worker = .dequeue c payloadLen) →
        s'.logger.queue.size.toNat < s.logger.queue.size.toNat) := by
  rw [h.size_eq, h'.size_eq]
  cases htakes with
  | nothing hpc _ _ =>
    exact ⟨le_refl _, fun ⟨c, payloadLen, hc⟩ => absurd hc (hpc c payloadLen)⟩
  | @front frame frames _ _ _ _ _ _ =>
    obtain ⟨call, _, hframed, -, -⟩ := List.forall₂_cons_right_iff.mp h.waiting
    have hlong := hframed.length_mem.1
    rw [sizeofLogEntry] at hlong
    rw [List.flatten_cons, List.length_append]
    exact ⟨by omega, fun _ => by omega⟩

/-! ## The end under way -/

/-- **The program is being terminated**: the frontend is in `stop` or has called `std::terminate`;
the worker can empty the queue, and once it has, the calls `before` have been handed over. -/
structure Terminating (before : List (LogCall env)) (s : LoggerSystem env) : Prop where
  flow : ∃ done flying waiting frames, s.Flow done flying waiting frames ∧
    (s.worker.PastDrain → before <+: done)
  clear : ∃ done flying waiting frames, s.Flow done flying waiting frames ∧ s.Clear frames
  stage : s.Stage
  accepted : before <+: s.accepted
  frontend : s.frontend = .stopping ∨
    s.frontend = .joining true ∧ s.backend.shutdownRequired = true ∨
    s.frontend = .terminated ∧ s.worker = .exited

namespace Terminating

/-- No call begins. -/
theorem not_idle (h : s.Terminating before) : s.frontend ≠ .idle := by
  rcases h.frontend with hf | ⟨hf, -⟩ | ⟨hf, -⟩ <;> simp [hf]

/-- The worker was started, and not joined, before `stop`. -/
theorem running (h : s.Terminating before) (hstopping : s.frontend = .stopping) :
    s.running = true := by
  cases h.stage with
  | resting _ hf _ | starting _ hf _ => simp [hstopping] at hf
  | working hstatus _ _ => exact decide_eq_true hstatus

theorem clear_step (h : s.Terminating before) {a : Action env} (hs : s.step a = some s') :
    ∃ done flying waiting frames, s'.Flow done flying waiting frames ∧ s'.Clear frames := by
  obtain ⟨_, _, _, _, hflow, hclear⟩ := h.clear
  obtain ⟨done', flying', waiting', frames', hflow', hiff⟩ := hflow.clear_step h.not_idle hs
  exact ⟨done', flying', waiting', frames', hflow', hiff.mpr hclear⟩

/-- The worker's steps. -/
theorem stepWorker (h : s.Terminating before) {now : Size} (hs : s.stepWorker now = some s') :
    s'.Terminating before ∧ s'.frontend = s.frontend := by
  obtain ⟨done, flying, waiting, frames, hflow, hdrained⟩ := h.flow
  obtain ⟨done', flying', waiting', frames', hflow', hle, hkeeps, hgoes, -⟩ := hflow.stepWorker hs
  refine ⟨⟨⟨done', flying', waiting', frames', hflow', fun hpast => ?_⟩,
    h.clear_step (a := .worker now) hs, h.stage.stepWorker hkeeps hgoes,
    hkeeps.accepted ▸ h.accepted, ?_⟩, hkeeps.frontend⟩
  · rcases hgoes.pastDrain hpast with hsettled | hpast
    · exact (hsettled ▸ h.accepted).trans hle
    · exact (hdrained hpast).trans hle
  · rcases h.frontend with hf | ⟨hf, hup⟩ | ⟨hf, hexited⟩
    · exact .inl (hkeeps.frontend.trans hf)
    · exact .inr (.inl ⟨hkeeps.frontend.trans hf, hkeeps.shutdown.trans hup⟩)
    · rw [hexited] at hgoes
      cases hgoes

/-- The frontend's steps: `stop` raises the flag, then joins. -/
theorem stepFrontend (h : s.Terminating before) (hs : s.stepFrontend = some s') :
    s'.Terminating before ∧
      (s.frontend = .stopping ∧ s'.frontend = .joining true ∨ s'.frontend = .terminated) := by
  have hkeeps := stepFrontend_keeps hs
  obtain ⟨done, flying, waiting, frames, hflow, hdrained⟩ := h.flow
  have hflow' : ∃ done flying waiting frames, s'.Flow done flying waiting frames ∧
      (s'.worker.PastDrain → before <+: done) :=
    ⟨_, _, _, _, hflow.frontend hkeeps, fun hpast => hdrained (hkeeps.worker ▸ hpast)⟩
  have hclear := h.clear_step (a := .frontend) hs
  have hstage := h.stage.stepFrontend hs
  have haccepted : before <+: s'.accepted := hkeeps.accepted ▸ h.accepted
  rw [LoggerSystem.stepFrontend] at hs
  rcases h.frontend with hf | ⟨hf, hup⟩ | ⟨hf, -⟩
  · have hrunning := h.running hf
    rw [hf] at hs
    dsimp only at hs
    rw [beginStop, if_pos hrunning] at hs
    obtain rfl := Option.some.inj hs
    exact ⟨⟨hflow', hclear, hstage, haccepted, .inr (.inl ⟨rfl, rfl⟩)⟩, .inl ⟨hf, rfl⟩⟩
  · rw [hf] at hs
    dsimp only at hs
    split_ifs at hs with hexited hterminate
    · obtain rfl := Option.some.inj hs
      exact ⟨⟨hflow', hclear, hstage, haccepted, .inr (.inr ⟨rfl, hexited⟩)⟩, .inr rfl⟩
    · exact absurd rfl hterminate
  · rw [hf] at hs
    cases hs

/-- **Every step is on the way to the end.** -/
theorem step (h : s.Terminating before) {a : Action env} (hs : s.step a = some s') :
    s'.Terminating before := by
  cases step_begins hs with
  | worker hs => exact (h.stepWorker hs).1
  | frontend hs => exact (h.stepFrontend hs).1
  | log hidle _ | flush hidle | startWorker hidle _ | stopWorker hidle | setLevel hidle =>
    exact absurd hidle h.not_idle

end Terminating

/-! ## Fair schedules -/

/-- The threads of a logger. -/
inductive Thread
  | frontend
  | worker

/-- The action is a turn of the thread. -/
def Thread.Turn : Thread → Action env → Prop
  | frontend, .frontend => True
  | worker, .worker _ => True
  | _, _ => False

/-- The way that is left: up to the raise of the flag, and after it up to the worker's end. -/
def wayLeft (s : LoggerSystem env) : ℕ ×ₗ ℕ :=
  if s.frontend = .stopping then toLex (1, 0)
  else toLex (0, s.worker.rank s.logger.queue.size.toNat)

/-- The thread that has to act next: the frontend is to raise the flag, or to join. -/
def actsNext (s : LoggerSystem env) : Thread :=
  if s.frontend = .stopping ∨ s.worker = .exited then .frontend else .worker

namespace Terminating

/-- **Every step but one of the worker before the flag is up shortens the way.** -/
theorem wayLeft_step (h : s.Terminating before) {a : Action env} (hs : s.step a = some s') :
    s'.frontend = .terminated ∨ s'.wayLeft < s.wayLeft ∨
      s'.wayLeft = s.wayLeft ∧ s'.actsNext = s.actsNext ∧ ¬s.actsNext.Turn a := by
  cases step_begins hs with
  | frontend hs =>
    rcases (h.stepFrontend hs).2 with ⟨hf, hf'⟩ | hf'
    · refine .inr (.inl ?_)
      rw [wayLeft, wayLeft, if_pos hf, hf', if_neg (by simp)]
      exact Prod.Lex.toLex_lt_toLex.mpr (.inl Nat.one_pos)
    · exact .inl hf'
  | worker hs =>
    obtain ⟨done, flying, waiting, frames, hflow, -⟩ := h.flow
    have hfrontend := (h.stepWorker hs).2
    rcases h.frontend with hf | ⟨hf, hup⟩ | ⟨hf, -⟩
    · refine .inr (.inr ⟨?_, ?_, ?_⟩)
      · rw [wayLeft, wayLeft, hfrontend, if_pos hf, if_pos hf]
      · rw [actsNext, actsNext, hfrontend, if_pos (.inl hf), if_pos (.inl hf)]
      · rw [actsNext, if_pos (.inl hf)]
        exact id
    · obtain ⟨_, _, _, _, hflow', -, -, hgoes, htakes⟩ := hflow.stepWorker hs
      obtain ⟨hle, hlt⟩ := htakes.size_le hflow hflow'
      refine .inr (.inl ?_)
      rw [wayLeft, wayLeft, hfrontend, hf, if_neg (by simp), if_neg (by simp)]
      exact Prod.Lex.toLex_lt_toLex.mpr (.inr ⟨rfl, hgoes.rank_lt hup hle hlt⟩)
    · exact .inl (hfrontend.trans hf)
  | log hidle _ | flush hidle | startWorker hidle _ | stopWorker hidle | setLevel hidle =>
    exact absurd hidle h.not_idle

/-- **The thread that has to act next can.** -/
theorem exists_step (h : s.Terminating before) (hgoal : s.frontend ≠ .terminated) {a : Action env}
    (hturn : s.actsNext.Turn a) : ∃ s', s.step a = some s' := by
  rw [actsNext] at hturn
  split_ifs at hturn with hnext
  · cases a with
    | frontend =>
      rcases h.frontend with hf | ⟨hf, -⟩ | ⟨hf, -⟩
      · exact ⟨_, by rw [LoggerSystem.step, LoggerSystem.stepFrontend, hf]⟩
      · have hexited : s.worker = .exited := hnext.resolve_left (by simp [hf])
        rw [LoggerSystem.step, LoggerSystem.stepFrontend, hf]
        dsimp only
        rw [if_pos hexited]
        exact ⟨_, rfl⟩
      · exact absurd hf hgoal
    | _ => exact absurd hturn id
  · cases a with
    | worker now =>
      rw [not_or] at hnext
      have hstarted : s.worker ≠ .unstarted := by
        cases h.stage with
        | resting _ hf _ =>
          rcases hf with hf | hf
          · exact absurd hf h.not_idle
          · exact absurd hf hgoal
        | starting _ _ hworker | working _ _ hworker => exact hworker
      obtain ⟨_, _, _, _, hflow, hclear⟩ := h.clear
      exact hflow.clear_works hclear hstarted hnext.2 now
    | _ => exact absurd hturn id

/-- **The program ends** under every fair schedule. -/
theorem eventually (h : s.Terminating before) {schedule : ℕ → Action env}
    (hfair : Fair Thread.Turn schedule) :
    ∃ n, (turns LoggerSystem.step schedule s n).frontend = .terminated := by
  refine hfair.eventually (Terminating before) (fun s => s.frontend = .terminated)
    wayLeft actsNext ?_ ?_ h
  · intro s s' a h _ hs
    rcases h.wayLeft_step hs with hend | hlt | ⟨heq, hnext, -⟩
    · exact .inl hend
    · exact .inr ⟨h.step hs, .inl hlt⟩
    · exact .inr ⟨h.step hs, .inr ⟨heq, hnext⟩⟩
  · intro s a h hgoal hturn
    obtain ⟨s', hs⟩ := h.exists_step hgoal hturn
    refine ⟨s', hs, ?_⟩
    rcases h.wayLeft_step hs with hend | hlt | ⟨-, -, hother⟩
    · exact .inl hend
    · exact .inr hlt
    · exact absurd hturn hother

end Terminating

/-! ## Fatal calls -/

/-- **What a fatal call is for**, made in the state `s` and leading to `s'`: it does not return;
when the program is terminated, the worker has been stopped, and every sink has got all calls
accepted before; and under every fair schedule it comes to that. -/
structure Terminates (s s' : LoggerSystem env) : Prop where
  stays : ∀ t, Reaches step (fun _ _ => True) s' t →
    t.frontend = .stopping ∨ t.frontend = .joining true ∨ t.frontend = .terminated
  drained : ∀ t, Reaches step (fun _ _ => True) s' t → t.frontend = .terminated →
    t.worker = .exited ∧ ∀ sink ∈ t.backend.sinks, ∃ handed,
      List.Forall₂ (LogCall.Handed t.logger.threadId) handed sink ∧ s.accepted <+: handed
  ends : ∀ schedule, Fair Thread.Turn schedule →
    ∃ n, (turns step schedule s' n).frontend = .terminated

/-- A call that leads to termination. -/
theorem Terminating.terminates (h : s'.Terminating s.accepted) : s.Terminates s' := by
  have hrun : ∀ t, Reaches LoggerSystem.step (fun _ _ => True) s' t →
      t.Terminating s.accepted :=
    fun t ht => ht.invariant h fun h _ hs => h.step hs
  refine ⟨fun t ht => ?_, fun t ht hend => ?_, fun _ hfair => h.eventually hfair⟩
  · rcases (hrun t ht).frontend with hf | ⟨hf, -⟩ | ⟨hf, -⟩
    · exact .inl hf
    · exact .inr (.inl hf)
    · exact .inr (.inr hf)
  · have hexited : t.worker = .exited := by
      rcases (hrun t ht).frontend with hf | ⟨hf, -⟩ | ⟨-, hexited⟩
      · simp [hf] at hend
      · simp [hf] at hend
      · exact hexited
    obtain ⟨done, _, _, _, hflow, hdrained⟩ := (hrun t ht).flow
    exact ⟨hexited, fun sink hsink => ⟨done, hflow.sinks sink hsink, hdrained (hexited ▸ trivial)⟩⟩

/-- A worker that has drained the queue leaves without looking at it again. -/
theorem exists_exited (hpast : s.worker.PastDrain) :
    ∃ t, Reaches step (fun _ _ => True) s t ∧ t.worker = .exited ∧ t.frontend = s.frontend ∧
      t.backend.sinks = s.backend.sinks := by
  have hfinal : ∀ {t : LoggerSystem env} {req : Size}, t.worker = .storeFinal req →
      ∃ t', t.step (.worker 0#64) = some t' ∧ t'.worker = .exited ∧ t'.frontend = t.frontend ∧
        t'.backend.sinks = t.backend.sinks := by
    intro t req hpc
    rw [step, stepWorker, hpc]
    exact ⟨_, rfl, rfl, rfl, rfl⟩
  cases hpc : s.worker with
  | exited => exact ⟨s, .refl, hpc, rfl, rfl⟩
  | storeFinal req =>
    obtain ⟨t, hs, hrest⟩ := hfinal hpc
    exact ⟨t, Reaches.refl.tail trivial hs, hrest⟩
  | drained =>
    obtain ⟨t, hs, hworker, hsame⟩ : ∃ t, s.step (.worker 0#64) = some t ∧
        t.worker = .storeFinal s.backend.flushRequestedSeq ∧ t.frontend = s.frontend ∧
        t.backend.sinks = s.backend.sinks := by
      rw [step, stepWorker, hpc]
      exact ⟨_, rfl, rfl, rfl, rfl⟩
    obtain ⟨t', hs', hexited, hsame'⟩ := hfinal hworker
    exact ⟨t', (Reaches.refl.tail trivial hs).tail trivial hs', hexited,
      hsame'.1.trans hsame.1, hsame'.2.trans hsame.2⟩
  | _ =>
    rw [hpc] at hpast
    exact absurd hpast id

/-- The program can end at once where the worker has drained the queue. -/
theorem exists_terminated (hrunning : s.running = true) (hstopping : s.frontend = .stopping)
    (hpast : s.worker.PastDrain) :
    ∃ t, Reaches step (fun _ _ => True) s t ∧ t.frontend = .terminated ∧
      t.backend.sinks = s.backend.sinks := by
  obtain ⟨t, hs, hworker, hjoining, hsinks⟩ : ∃ t, s.step .frontend = some t ∧
      t.worker = s.worker ∧ t.frontend = .joining true ∧ t.backend.sinks = s.backend.sinks := by
    rw [step, stepFrontend, hstopping]
    dsimp only
    rw [beginStop, if_pos hrunning]
    exact ⟨_, rfl, rfl, rfl, rfl⟩
  obtain ⟨u, hrun, hexited, hfrontend, hsinks'⟩ := exists_exited (hworker ▸ hpast)
  obtain ⟨v, hs', hend, hsinks''⟩ : ∃ v, u.step .frontend = some v ∧
      v.frontend = .terminated ∧ v.backend.sinks = u.backend.sinks := by
    rw [step, stepFrontend, hfrontend, hjoining]
    dsimp only
    rw [if_pos hexited]
    exact ⟨_, rfl, rfl, rfl⟩
  exact ⟨v, ((Reaches.refl.tail trivial hs).trans hrun).tail trivial hs', hend,
    hsinks''.trans (hsinks'.trans hsinks)⟩

/-- What a log call returns decides where it leaves the frontend. -/
theorem exists_result {call : LogCall env} (hs : s.beginLog call = some s') :
    ∃ result, s.logger.log s.running call = some result ∧ s.accepted <+: s'.accepted ∧
      s'.frontend = if result.terminate then .stopping else .idle := by
  obtain ⟨result, hresult, rfl⟩ := Option.map_eq_some_iff.mp hs
  refine ⟨result, hresult, ?_, rfl⟩
  dsimp only
  split_ifs
  · exact List.prefix_append _ _
  · exact List.prefix_refl _

/-- **A short message comes to the queue**, behind the frames that are in it. -/
theorem Flow.beginLog_of_short (h : s.Flow done flying waiting frames) {call : LogCall env}
    (hpass : s.logger.Passes s.running call) (hshort : call.messageSize < kMaxPayloadSize) :
    ∃ s' frame waiting', s.beginLog call = some s' ∧ call.Framed s.logger.threadId frame ∧
      s'.Flow done flying waiting' (s.enqueued frames frame) ∧ s.LogKeeps s' := by
  obtain ⟨result, frame, hresult, hframe⟩ := InternalLogger.log_of_short h.queue hpass hshort
  have hs : s.beginLog call = some _ := congrArg (Option.map _) hresult
  obtain ⟨result', waiting', hresult', h', hkeeps⟩ := h.beginLog hs
  obtain rfl := Option.some.inj (hresult.symm.trans hresult')
  refine ⟨_, frame, waiting', hs, hframe.framed, ?_, hkeeps⟩
  have hframes : frames ++ result.accepted.toList = s.enqueued frames frame := by
    rw [hframe.accepted, enqueued]
    split_ifs
    · rfl
    · exact List.append_nil _
  exact hframes ▸ h'

/-- **A call that goes to `stop` terminates**, if the worker can empty the queue after it, or found
it empty. -/
theorem Tracked.terminates (h : s.Tracked) (hidle : s.frontend = .idle) {call : LogCall env}
    (hs : s.beginLog call = some s') (hstopping : s'.frontend = .stopping)
    (hempty : s.worker.PastDrain → s.logger.queue.empty = true)
    (hclear : ∃ done flying waiting frames, s'.Flow done flying waiting frames ∧ s'.Clear frames) :
    s.Terminates s' := by
  obtain ⟨done, flying, waiting, frames, hflow⟩ := h.flow
  obtain ⟨_, waiting', -, hflow', hkeeps⟩ := hflow.beginLog hs
  obtain ⟨-, -, haccepted, -⟩ := exists_result hs
  refine Terminating.terminates ⟨⟨done, flying, waiting', _, hflow', fun hpast => ?_⟩, hclear,
    h.stage.beginLog hidle hkeeps, haccepted, .inl hstopping⟩
  rw [hkeeps.worker] at hpast
  have hnone := hempty hpast
  rw [hflow.queue.empty_eq, List.isEmpty_iff] at hnone
  have hwaiting := hflow.frames_eq_nil (by rw [hnone]; decide)
  have hflying := (workerHas_iff hpast.plain).mp hflow.worker
  rw [hflow.accepted, hwaiting, hflying, List.append_nil, List.append_nil]

/-- **What a worker past its last drain has left in the queue is lost** when the program ends. -/
theorem Terminates.empty (h : s.Terminates s') (htracked : s.Tracked)
    (hsinks : s.backend.sinks ≠ []) {call : LogCall env} (hs : s.beginLog call = some s')
    (hrunning : s.running = true) (hstopping : s'.frontend = .stopping)
    (hpast : s.worker.PastDrain) : s.logger.queue.empty = true := by
  obtain ⟨done, flying, waiting, frames, hflow⟩ := htracked.flow
  obtain ⟨-, -, -, -, hkeeps⟩ := hflow.beginLog hs
  have hrunning' : s'.running = true := by
    rw [running, hkeeps.backend]
    exact hrunning
  obtain ⟨t, hrun, hend, hsame⟩ := exists_terminated hrunning' hstopping (hkeeps.worker ▸ hpast)
  obtain ⟨sink, hsink⟩ := List.exists_mem_of_ne_nil _ hsinks
  -- the sink has got `done`, and is to have got all that was accepted
  have hlength := (hflow.sinks sink hsink).length_eq
  obtain ⟨handed, hhanded, hle⟩ :=
    (h.drained t hrun hend).2 sink (by rwa [hsame, hkeeps.backend])
  have hle' := hle.length_le
  rw [hhanded.length_eq, ← hlength, hflow.accepted, List.length_append, List.length_append] at hle'
  have hwaiting : waiting = [] := List.length_eq_zero_iff.mp (by omega)
  subst hwaiting
  obtain rfl := List.forall₂_nil_left_iff.mp hflow.waiting
  exact hflow.queue.empty_eq

/-- **A program that ends has emptied the queue**, so the worker could. -/
theorem Terminates.clear (h : s.Terminates s') (hflow : s'.Flow done flying waiting frames) :
    s'.Clear frames := by
  have hrun : ∀ {t}, Reaches step (fun _ _ => True) s' t →
      ∃ done' flying' waiting' frames', t.Flow done' flying' waiting' frames' ∧
        (t.Clear frames' ↔ s'.Clear frames) := by
    intro t ht
    induction ht with
    | refl => exact ⟨_, _, _, _, hflow, Iff.rfl⟩
    | @tail t t' a ht _ hs ih =>
      obtain ⟨_, _, _, _, hflow', hiff⟩ := ih
      have hbusy : t.frontend ≠ .idle := by
        rcases h.stays t ht with hf | hf | hf <;> simp [hf]
      obtain ⟨done', flying', waiting', frames', hflow'', hiff'⟩ := hflow'.clear_step hbusy hs
      exact ⟨done', flying', waiting', frames', hflow'', hiff'.trans hiff⟩
  have hfair : Fair Thread.Turn (alternate (α := Action env) .frontend (.worker 0#64)) :=
    fair_alternate fun i => by cases i <;> simp [Thread.Turn]
  obtain ⟨n, hend⟩ := h.ends _ hfair
  have hreaches := reaches_turns step (alternate .frontend (.worker 0#64)) s' n
  obtain ⟨_, _, _, _, -, hiff⟩ := hrun hreaches
  refine hiff.mp (.inl ?_)
  rw [(h.drained _ hreaches hend).1]
  trivial

/-- A call after which the program ends has gone to `stop`. -/
theorem Terminates.stopping (h : s.Terminates s') {call : LogCall env}
    (hs : s.beginLog call = some s') : s'.frontend = .stopping := by
  obtain ⟨result, -, -, hfrontend⟩ := exists_result hs
  rcases h.stays s' .refl with hf | hf | hf
  · exact hf
  · rw [hf] at hfrontend
    split_ifs at hfrontend
  · rw [hf] at hfrontend
    split_ifs at hfrontend

/-- **A fatal call goes to `stop`** exactly if its message is short. -/
theorem Flow.stopping_iff (h : s.Flow done flying waiting frames) {call : LogCall env}
    (hfatal : call.level = .kFatal) (hpass : s.logger.Passes s.running call)
    (hterminate : s.logger.terminateOnFatal = true) (hs : s.beginLog call = some s') :
    s'.frontend = .stopping ↔ call.messageSize < kMaxPayloadSize := by
  obtain ⟨result, hresult, -, hfrontend⟩ := exists_result hs
  rw [← InternalLogger.terminate_log h.queue hpass hfatal hterminate hresult, hfrontend]
  cases result.terminate <;> simp

end LoggerSystem

end Femtolog
