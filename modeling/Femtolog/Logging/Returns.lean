import Femtolog.Logging.Fatal
import Femtolog.Logging.Flush

/-!
# Logging/Returns — whether `flush` returns

The frontend waits in `flush` until the worker has stored the number of its request.  While it waits
nothing is enqueued, so a worker that can empty the queue is done with it some time, and then it
looks for the number of the last request.

That is so unless the worker has done so for the last time before (`flush_returns_iff`).  Then
`flush` does not return at all, whatever comes (`Hanging.stays`); it takes a second start, after
which the status is `kRunning` again, although the worker has left at once.
-/

namespace Femtolog

variable {env : Env}

/-! ## Request numbers -/

/-- **The numbers the worker has read** lie between the completed one and the requested one. -/
def WorkerPc.Asks (completed requested : ℕ) : WorkerPc → Prop
  | .loadCompleted req | .storeFinal req => completed ≤ req.toNat ∧ req.toNat ≤ requested
  | .peek (.flush req) | .dequeue (.flush req) _ | .process (.flush req) | .storeCompleted req =>
    completed < req.toNat ∧ req.toNat ≤ requested
  | _ => True

/-- A later request. -/
theorem WorkerPc.Asks.mono {completed requested requested' : ℕ} {pc : WorkerPc}
    (h : pc.Asks completed requested) (hle : requested ≤ requested') :
    pc.Asks completed requested' := by
  cases pc with
  | loadCompleted | storeFinal | storeCompleted => exact ⟨h.1, h.2.trans hle⟩
  | peek c | dequeue c | process c =>
    cases c with
    | flush => exact ⟨h.1, h.2.trans hle⟩
    | main | drain => trivial
  | _ => trivial

/-- **A move of the worker keeps the numbers in order**, and takes none back. -/
theorem Goes.asks {b : BackendWorker} {settled : Prop} {pc pc' : WorkerPc} {completed : Size}
    (h : Goes b settled pc pc' completed)
    (hle : b.flushCompletedSeq.toNat ≤ b.flushRequestedSeq.toNat)
    (hasks : pc.Asks b.flushCompletedSeq.toNat b.flushRequestedSeq.toNat) :
    b.flushCompletedSeq.toNat ≤ completed.toNat ∧
      completed.toNat ≤ b.flushRequestedSeq.toNat ∧
      pc'.Asks completed.toNat b.flushRequestedSeq.toNat := by
  cases h with
  | shutdown _ | goOn _ => exact ⟨le_rfl, hle, trivial⟩
  | requested | drained => exact ⟨le_rfl, hle, hle, le_rfl⟩
  | due hdue => exact ⟨le_rfl, hle, hdue, hasks.2⟩
  | notDue _ => exact ⟨le_rfl, hle, trivial⟩
  | @found c _ | @taken c _ | @empty c _ | @handed c =>
    cases c with
    | flush req => exact ⟨le_rfl, hle, hasks⟩
    | main | drain => exact ⟨le_rfl, hle, trivial⟩
  | completed => exact ⟨hasks.1.le, hasks.2, trivial⟩
  | final => exact ⟨hasks.1, hasks.2, trivial⟩

namespace LoggerSystem

variable {s₀ s s' : LoggerSystem env}

/-- **The request numbers are in order**: the last one counts the requests, and nothing is completed
that was not requested. -/
structure Requests (s : LoggerSystem env) : Prop where
  counts : s.backend.flushRequestedSeq.toNat = s.marks.length
  completed_le : s.backend.flushCompletedSeq.toNat ≤ s.backend.flushRequestedSeq.toNat
  asks : s.worker.Asks s.backend.flushCompletedSeq.toNat s.backend.flushRequestedSeq.toNat

namespace Requests

theorem of_eq (h : s.Requests) (hmarks : s'.marks = s.marks)
    (hrequested : s'.backend.flushRequestedSeq = s.backend.flushRequestedSeq)
    (hcompleted : s'.backend.flushCompletedSeq = s.backend.flushCompletedSeq)
    (hworker : s'.worker = s.worker) : s'.Requests := by
  refine ⟨?_, ?_, ?_⟩
  · rw [hrequested, hmarks, h.counts]
  · rw [hcompleted, hrequested]
    exact h.completed_le
  · rw [hcompleted, hrequested, hworker]
    exact h.asks

/-- The next number is larger, as long as they do not run over. -/
theorem toNat_succ (h : s.Requests) (hfew : s.marks.length + 1 < 2 ^ 64) :
    (s.backend.flushRequestedSeq + 1#64).toNat = s.marks.length + 1 := by
  rw [BitVec.toNat_add, h.counts]
  exact Nat.mod_eq_of_lt hfew

theorem lt_succ (h : s.Requests) (hfew : s.marks.length + 1 < 2 ^ 64) :
    s.backend.flushRequestedSeq.toNat < (s.backend.flushRequestedSeq + 1#64).toNat := by
  rw [h.toNat_succ hfew, h.counts]
  exact Nat.lt_succ_self _

/-- A step of the worker. -/
theorem stepWorker (h : s.Requests) {done flying waiting : List (LogCall env)}
    {frames : List (List Byte)} (hflow : s.Flow done flying waiting frames) {now : Size}
    (hs : s.stepWorker now = some s') :
    s'.Requests ∧
      s.backend.flushCompletedSeq.toNat ≤ s'.backend.flushCompletedSeq.toNat := by
  obtain ⟨_, _, _, _, -, -, hkeeps, hgoes, -⟩ := hflow.stepWorker hs
  obtain ⟨hmore, hle, hasks⟩ := hgoes.asks h.completed_le h.asks
  refine ⟨⟨?_, ?_, ?_⟩, hmore⟩
  · rw [hkeeps.requested, hkeeps.marks, h.counts]
  · rwa [hkeeps.requested]
  · rwa [hkeeps.requested]

/-- A request. -/
theorem beginFlush (h : s.Requests) (hfew : s.FewFlushes .flush) : s.beginFlush.Requests := by
  rw [LoggerSystem.beginFlush]
  split_ifs
  · have hlt := h.lt_succ hfew
    refine ⟨?_, h.completed_le.trans hlt.le, h.asks.mono hlt.le⟩
    rw [List.length_append, List.length_singleton]
    exact h.toNat_succ hfew
  · exact h

theorem stepFrontend (h : s.Requests) (hs : s.stepFrontend = some s') : s'.Requests := by
  rw [LoggerSystem.stepFrontend] at hs
  cases hfrontend : s.frontend with
  | idle | terminated =>
    rw [hfrontend] at hs
    cases hs
  | starting =>
    rw [hfrontend] at hs
    exact Option.some.inj hs ▸ h.of_eq rfl rfl rfl rfl
  | flushing seq =>
    rw [hfrontend] at hs
    dsimp only at hs
    split_ifs at hs
    · exact Option.some.inj hs ▸ h
    · exact Option.some.inj hs ▸ h.of_eq rfl rfl rfl rfl
  | stopping =>
    rw [hfrontend] at hs
    obtain rfl := Option.some.inj hs
    rw [beginStop]
    split_ifs <;> exact h.of_eq rfl rfl rfl rfl
  | joining terminate =>
    rw [hfrontend] at hs
    dsimp only at hs
    split_ifs at hs <;> exact Option.some.inj hs ▸ h.of_eq rfl rfl rfl rfl

/-- **Every step keeps the numbers in order.** -/
theorem step (h : s.Requests) (htracked : s.Tracked) {a : Action env} (hfew : s.FewFlushes a)
    (hs : s.step a = some s') : s'.Requests := by
  obtain ⟨⟨_, _, _, _, hflow⟩, -⟩ := htracked
  cases step_begins hs with
  | worker hs => exact (h.stepWorker hflow hs).1
  | frontend hs => exact h.stepFrontend hs
  | log _ hs =>
    obtain ⟨_, _, rfl⟩ := Option.map_eq_some_iff.mp hs
    exact h.of_eq rfl rfl rfl rfl
  | flush _ => exact h.beginFlush hfew
  | startWorker _ hs =>
    rw [beginStart] at hs
    split_ifs at hs
    rw [← Option.some.inj hs]
    exact ⟨h.counts, h.completed_le, trivial⟩
  | stopWorker _ =>
    rw [beginStop]
    split_ifs <;> exact h.of_eq rfl rfl rfl rfl
  | setLevel _ => exact h.of_eq rfl rfl rfl rfl

end Requests

theorem requests_initial (threadId : BitVec 32) (options : FemtologOptions) (queue : SpscQueue)
    (sinks : ℕ) : (initial env threadId options queue sinks).Requests :=
  ⟨rfl, le_rfl, trivial⟩

/-- A run in which the request numbers do not run over. -/
theorem requests_of_reaches (h : s₀.Requests) (htracked : s₀.Tracked)
    (hrun : Reaches step FewFlushes s₀ s) : s.Requests ∧ s.Tracked :=
  hrun.invariant (I := fun s => s.Requests ∧ s.Tracked) ⟨h, htracked⟩ fun h hfew hs =>
    ⟨h.1.step h.2 hfew hs, (h.2.step hs).1⟩

/-- **A buffer for the longest entry is enough** to empty the queue, if the arguments are read in
order. -/
theorem Flow.drains_of_room {done flying waiting : List (LogCall env)} {frames : List (List Byte)}
    (h : s.Flow done flying waiting frames)
    (hroom : largestEntry s.logger.queue.capacity.toNat ≤ s.backend.dequeueBuffer.length)
    (hread : ∀ call ∈ s.accepted, env.order.InOrder call.args.length) : s.Drains frames := by
  have hmem : ∀ call ∈ flying ++ waiting, call ∈ s.accepted := fun call hcall => by
    rw [h.accepted]
    exact List.mem_append_right _ hcall
  refine ⟨fun c hpc => ?_, ?_⟩
  · have hworker := h.worker
    rw [hpc] at hworker
    obtain ⟨call, bytes, rest, rfl, hframed, hbuffer⟩ := hworker
    rw [hbuffer]
    exact hframed.processable (hread call (hmem call List.mem_cons_self)) rest
  · exact goThrough_of_room h.waiting
      (fun call hcall => hread call (hmem call (List.mem_append_right _ hcall)))
      ((largestEntry_mono h.queue.length_le).trans hroom)

/-! ## A flush under way -/

/-- The worker reads no request number any more, and `seq` is not the one it read last. -/
def Abandoned (s : LoggerSystem env) (seq : Size) : Prop :=
  s.worker = .exited ∨ ∃ req, s.worker = .storeFinal req ∧ req ≠ seq

end LoggerSystem

/-- How many steps the worker can take until it has completed the request `seq`, with `n` bytes in
the queue, while no other is made. -/
def WorkerPc.wayTo (seq : Size) (n : ℕ) : WorkerPc → ℕ
  | .unstarted | .exited => 0
  | .storeFinal _ => 1
  | .drained => 2
  | .dequeue .drain _ => 3 + 3 * n
  | .peek .drain => 4 + 3 * n
  | .process .drain => 5 + 3 * n
  | .storeCompleted req => if req = seq then 1 else 12 + 3 * n
  | .dequeue (.flush req) _ => if req = seq then 3 + 3 * n else 13 + 3 * n
  | .peek (.flush req) => if req = seq then 4 + 3 * n else 14 + 3 * n
  | .process (.flush req) => if req = seq then 5 + 3 * n else 15 + 3 * n
  | .loadCompleted req => if req = seq then 6 + 3 * n else 16 + 3 * n
  | .loadRequested => 7 + 3 * n
  | .loadShutdown => 8 + 3 * n
  | .process .main => 9 + 3 * n
  | .dequeue .main _ => 10 + 3 * n
  | .peek .main => 11 + 3 * n

/-- The worker leaves with the number it has read last. -/
theorem Goes.of_exited {b : BackendWorker} {settled : Prop} {pc pc' : WorkerPc} {completed : Size}
    (h : Goes b settled pc pc' completed) (hpc' : pc' = .exited) : pc = .storeFinal completed := by
  cases h with
  | final => rfl
  | @empty c _ | @handed c => cases c <;> cases hpc'
  | _ => cases hpc'

/-- The number read last is that of the last request. -/
theorem Goes.of_storeFinal {b : BackendWorker} {settled : Prop} {pc pc' : WorkerPc}
    {completed req : Size} (h : Goes b settled pc pc' completed) (hpc' : pc' = .storeFinal req) :
    b.flushRequestedSeq = req := by
  cases h with
  | drained => exact WorkerPc.storeFinal.inj hpc'
  | @empty c _ | @handed c => cases c <;> cases hpc'
  | _ => cases hpc'

/-- There is a way to go from every place that the worker moves from. -/
theorem Goes.wayTo_pos {b : BackendWorker} {settled : Prop} {pc pc' : WorkerPc} {completed : Size}
    (h : Goes b settled pc pc' completed) (seq : Size) (n : ℕ) : 0 < pc.wayTo seq n := by
  cases h with
  | @found c _ | @empty c _ | @handed c | @taken c _ =>
    cases c with
    | flush req =>
      rw [WorkerPc.wayTo]
      split_ifs <;> omega
    | main | drain =>
      rw [WorkerPc.wayTo]
      omega
  | due _ | notDue _ | completed =>
    rw [WorkerPc.wayTo]
    split_ifs <;> omega
  | shutdown _ | goOn _ | requested | drained | final =>
    rw [WorkerPc.wayTo]
    omega

/-- **Every move is a move towards the completion** of the request made last, if a dequeue takes
something. -/
theorem Goes.wayTo_lt {b : BackendWorker} {settled : Prop} {pc pc' : WorkerPc} {completed : Size}
    (h : Goes b settled pc pc' completed) {seq : Size} (hseq : b.flushRequestedSeq = seq)
    (hopen : b.flushCompletedSeq < seq) (hopen' : completed < seq) {n n' : ℕ} (hle : n' ≤ n)
    (htakes : (∃ c payloadLen, pc = .dequeue c payloadLen) → n' < n) :
    pc'.wayTo seq n' < pc.wayTo seq n := by
  cases h with
  | shutdown _ | goOn _ | drained | final =>
    simp only [WorkerPc.wayTo]
    omega
  | requested =>
    simp only [WorkerPc.wayTo, if_pos hseq]
    omega
  | due _ =>
    simp only [WorkerPc.wayTo]
    split_ifs <;> omega
  | @notDue req hdone =>
    have hother : req ≠ seq := by
      rintro rfl
      exact hdone hopen
    simp only [WorkerPc.wayTo, if_neg hother]
    omega
  | completed =>
    have hother : completed ≠ seq := by
      rintro rfl
      exact BitVec.lt_irrefl _ hopen'
    simp only [WorkerPc.wayTo, if_neg hother]
    omega
  | @found c _ | @empty c _ | @handed c =>
    cases c with
    | flush req =>
      simp only [WorkerPc.wayTo, Caller.failed, Caller.succeeded]
      split_ifs <;> omega
    | main | drain =>
      simp only [WorkerPc.wayTo, Caller.failed, Caller.succeeded]
      omega
  | @taken c payloadLen =>
    have hlt := htakes ⟨c, payloadLen, rfl⟩
    cases c with
    | flush req =>
      simp only [WorkerPc.wayTo]
      split_ifs <;> omega
    | main | drain =>
      simp only [WorkerPc.wayTo]
      omega

namespace LoggerSystem

variable {s₀ s s' : LoggerSystem env}

/-- **The frontend waits for its request `seq`**, which is the last one made, of a worker that can
empty the queue and has not left it unread. -/
structure Awaiting (seq : Size) (s : LoggerSystem env) : Prop where
  clear : ∃ done flying waiting frames, s.Flow done flying waiting frames ∧ s.Clear frames
  requests : s.Requests
  requested : s.backend.flushRequestedSeq = seq
  frontend : s.frontend = .flushing seq
  started : s.worker ≠ .unstarted
  read : s.backend.flushCompletedSeq < seq → ¬s.Abandoned seq

namespace Awaiting

variable {seq : Size}

theorem not_idle (h : s.Awaiting seq) : s.frontend ≠ .idle := by
  rw [h.frontend]
  exact nofun

theorem clear_step (h : s.Awaiting seq) {a : Action env} (hs : s.step a = some s') :
    ∃ done flying waiting frames, s'.Flow done flying waiting frames ∧ s'.Clear frames := by
  obtain ⟨_, _, _, _, hflow, hclear⟩ := h.clear
  obtain ⟨done', flying', waiting', frames', hflow', hiff⟩ := hflow.clear_step h.not_idle hs
  exact ⟨done', flying', waiting', frames', hflow', hiff.mpr hclear⟩

/-- A completed request stays completed. -/
theorem completed_stepWorker (h : s.Awaiting seq) {now : Size} (hs : s.stepWorker now = some s')
    (hdone : ¬s.backend.flushCompletedSeq < seq) : ¬s'.backend.flushCompletedSeq < seq := by
  obtain ⟨_, _, _, _, hflow, -⟩ := h.clear
  have hmore := (h.requests.stepWorker hflow hs).2
  rw [BitVec.lt_def] at hdone ⊢
  omega

/-- The worker's steps. -/
theorem stepWorker (h : s.Awaiting seq) {now : Size} (hs : s.stepWorker now = some s') :
    s'.Awaiting seq := by
  obtain ⟨done, flying, waiting, frames, hflow, -⟩ := h.clear
  obtain ⟨_, _, _, _, -, -, hkeeps, hgoes, -⟩ := hflow.stepWorker hs
  refine ⟨h.clear_step (a := .worker now) hs, (h.requests.stepWorker hflow hs).1,
    hkeeps.requested.trans h.requested, hkeeps.frontend.trans h.frontend, hgoes.started, ?_⟩
  intro hopen' habandoned
  have hopen : s.backend.flushCompletedSeq < seq := by
    by_contra hdone
    exact h.completed_stepWorker hs hdone hopen'
  have hread := h.read hopen
  rcases habandoned with hexited | ⟨req, hfinal, hother⟩
  · have hfinal := hgoes.of_exited hexited
    refine hread (.inr ⟨_, hfinal, ?_⟩)
    rintro heq
    rw [heq] at hopen'
    exact BitVec.lt_irrefl seq hopen'
  · exact hother ((hgoes.of_storeFinal hfinal).symm.trans h.requested)

/-- The frontend waits until the request is completed. -/
theorem stepFrontend (h : s.Awaiting seq) (hs : s.stepFrontend = some s') :
    s.backend.flushCompletedSeq < seq ∧ s' = s ∨
      ¬s.backend.flushCompletedSeq < seq ∧ s'.frontend = .idle := by
  rw [LoggerSystem.stepFrontend, h.frontend] at hs
  dsimp only at hs
  split_ifs at hs with hopen
  · exact .inl ⟨hopen, (Option.some.inj hs).symm⟩
  · exact .inr ⟨hopen, Option.some.inj hs ▸ rfl⟩

/-- The way to the completion of the request. -/
def wayLeft (seq : Size) (s : LoggerSystem env) : ℕ :=
  if s.backend.flushCompletedSeq < seq then s.worker.wayTo seq s.logger.queue.size.toNat else 0

/-- The thread that has to act next. -/
def actsNext (seq : Size) (s : LoggerSystem env) : Thread :=
  if s.backend.flushCompletedSeq < seq then .worker else .frontend

/-- **A step of the worker brings the completion nearer.** -/
theorem wayLeft_stepWorker (h : s.Awaiting seq) {now : Size} (hs : s.stepWorker now = some s')
    (hopen : s.backend.flushCompletedSeq < seq) : wayLeft seq s' < wayLeft seq s := by
  obtain ⟨_, _, _, _, hflow, -⟩ := h.clear
  obtain ⟨_, _, _, _, hflow', -, -, hgoes, htakes⟩ := hflow.stepWorker hs
  obtain ⟨hle, hlt⟩ := htakes.size_le hflow hflow'
  rw [wayLeft, wayLeft, if_pos hopen]
  split_ifs with hopen'
  · exact hgoes.wayTo_lt h.requested hopen hopen' hle hlt
  · exact hgoes.wayTo_pos seq _

/-- **Every step but those of the frontend before the completion** brings the end nearer. -/
theorem wayLeft_step (h : s.Awaiting seq) {a : Action env} (hs : s.step a = some s') :
    s'.frontend = .idle ∨ s'.Awaiting seq ∧ (wayLeft seq s' < wayLeft seq s ∨
      wayLeft seq s' = wayLeft seq s ∧ actsNext seq s' = actsNext seq s ∧
        ¬(actsNext seq s).Turn a) := by
  cases step_begins hs with
  | frontend hs =>
    rcases h.stepFrontend hs with ⟨hopen, rfl⟩ | ⟨-, hidle⟩
    · refine .inr ⟨h, .inr ⟨rfl, rfl, ?_⟩⟩
      rw [actsNext, if_pos hopen]
      exact id
    · exact .inl hidle
  | worker hs =>
    refine .inr ⟨h.stepWorker hs, ?_⟩
    by_cases hopen : s.backend.flushCompletedSeq < seq
    · exact .inl (h.wayLeft_stepWorker hs hopen)
    · have hopen' := h.completed_stepWorker hs hopen
      refine .inr ⟨?_, ?_, ?_⟩
      · rw [wayLeft, wayLeft, if_neg hopen, if_neg hopen']
      · rw [actsNext, actsNext, if_neg hopen, if_neg hopen']
      · rw [actsNext, if_neg hopen]
        exact id
  | log hidle _ | flush hidle | startWorker hidle _ | stopWorker hidle | setLevel hidle =>
    exact absurd hidle h.not_idle

/-- **The thread that has to act next can.** -/
theorem exists_step (h : s.Awaiting seq) {a : Action env} (hturn : (actsNext seq s).Turn a) :
    ∃ s', s.step a = some s' := by
  rw [actsNext] at hturn
  split_ifs at hturn with hopen
  · cases a with
    | worker now =>
      obtain ⟨_, _, _, _, hflow, hclear⟩ := h.clear
      exact hflow.clear_works hclear h.started (fun hexited => h.read hopen (.inl hexited)) now
    | _ => exact absurd hturn id
  · cases a with
    | frontend =>
      rw [LoggerSystem.step, LoggerSystem.stepFrontend, h.frontend]
      dsimp only
      rw [if_neg hopen]
      exact ⟨_, rfl⟩
    | _ => exact absurd hturn id

/-- **The flush returns** under every fair schedule. -/
theorem eventually (h : s.Awaiting seq) {schedule : ℕ → Action env}
    (hfair : Fair Thread.Turn schedule) :
    ∃ n, (turns LoggerSystem.step schedule s n).frontend = .idle := by
  refine hfair.eventually (Awaiting seq) (fun s => s.frontend = .idle) (wayLeft seq)
    (actsNext seq) ?_ ?_ h
  · intro s s' a h _ hs
    rcases h.wayLeft_step hs with hend | ⟨h', hlt | ⟨heq, hnext, -⟩⟩
    · exact .inl hend
    · exact .inr ⟨h', .inl hlt⟩
    · exact .inr ⟨h', .inr ⟨heq, hnext⟩⟩
  · intro s a h _ hturn
    obtain ⟨s', hs⟩ := h.exists_step hturn
    refine ⟨s', hs, ?_⟩
    rcases h.wayLeft_step hs with hend | ⟨-, hlt | ⟨-, -, hother⟩⟩
    · exact .inl hend
    · exact .inr hlt
    · exact absurd hturn hother

end Awaiting

/-! ## A flush without end -/

/-- **The frontend waits for ever**: its request is not completed, and the worker does not read it
any more. -/
structure Hanging (seq : Size) (s : LoggerSystem env) : Prop where
  frontend : s.frontend = .flushing seq
  open_ : s.backend.flushCompletedSeq < seq
  worker : s.worker = .exited ∨ ∃ req, s.worker = .storeFinal req ∧ req < seq

namespace Hanging

variable {seq : Size}

/-- **No step ends it.** -/
theorem step (h : s.Hanging seq) {a : Action env} (hs : s.step a = some s') : s'.Hanging seq := by
  have hbusy : s.frontend ≠ .idle := by
    rw [h.frontend]
    exact nofun
  cases step_begins hs with
  | worker hs =>
    rcases h.worker with hpc | ⟨req, hpc, hlt⟩
    · rw [LoggerSystem.stepWorker, hpc] at hs
      cases hs
    · rw [LoggerSystem.stepWorker, hpc] at hs
      obtain rfl := Option.some.inj hs
      exact ⟨h.frontend, hlt, .inl rfl⟩
  | frontend hs =>
    rw [LoggerSystem.stepFrontend, h.frontend] at hs
    dsimp only at hs
    rw [if_pos h.open_] at hs
    exact Option.some.inj hs ▸ h
  | log hidle _ | flush hidle | startWorker hidle _ | stopWorker hidle | setLevel hidle =>
    exact absurd hidle hbusy

/-- **Nothing ends it.** -/
theorem stays (h : s.Hanging seq) (hrun : Reaches LoggerSystem.step (fun _ _ => True) s s') :
    s'.Hanging seq :=
  hrun.invariant h fun h _ hs => h.step hs

end Hanging

/-! ## Requests that are answered -/

/-- A request of a logger that runs. -/
theorem beginFlush_of_running (hrunning : s.running = true) :
    s.beginFlush.backend.flushRequestedSeq = s.backend.flushRequestedSeq + 1#64 ∧
      s.beginFlush.frontend = .flushing (s.backend.flushRequestedSeq + 1#64) ∧
      s.beginFlush.backend.flushCompletedSeq = s.backend.flushCompletedSeq := by
  rw [beginFlush, if_pos hrunning]
  exact ⟨rfl, rfl, rfl⟩

/-- A worker that is still to read the request numbers answers the request. -/
theorem Requests.awaiting (h : s.Requests) (htracked : s.Tracked) (hrunning : s.running = true)
    (hfew : s.FewFlushes .flush)
    (hroom : largestEntry s.logger.queue.capacity.toNat ≤ s.backend.dequeueBuffer.length)
    (hread : ∀ call ∈ s.accepted, env.order.InOrder call.args.length)
    (hleft : s.worker ≠ .exited ∧ ∀ req, s.worker ≠ .storeFinal req) :
    s.beginFlush.Awaiting (s.backend.flushRequestedSeq + 1#64) := by
  obtain ⟨_, _, _, _, hflow⟩ := htracked.flow
  have hkeeps := s.beginFlush_keeps
  have hflow' := hflow.frontend hkeeps
  obtain ⟨hrequested, hfrontend, -⟩ := beginFlush_of_running hrunning
  refine ⟨⟨_, _, _, _, hflow', .inr (hflow'.drains_of_room ?_ ?_)⟩, h.beginFlush hfew, hrequested,
    hfrontend, hkeeps.worker ▸ htracked.stage.started hrunning, fun _ habandoned => ?_⟩
  · rwa [hkeeps.queue, hkeeps.dequeueBuffer]
  · rwa [hkeeps.accepted]
  · rw [Abandoned, hkeeps.worker] at habandoned
    rcases habandoned with hexited | ⟨req, hfinal, -⟩
    · exact hleft.1 hexited
    · exact hleft.2 req hfinal

/-- A worker that has read the request numbers for the last time does not. -/
theorem Requests.hanging (h : s.Requests) (hrunning : s.running = true)
    (hfew : s.FewFlushes .flush)
    (hleft : s.worker = .exited ∨ ∃ req, s.worker = .storeFinal req) :
    s.beginFlush.Hanging (s.backend.flushRequestedSeq + 1#64) := by
  obtain ⟨-, hfrontend, hcompleted⟩ := beginFlush_of_running hrunning
  have hlt := h.lt_succ hfew
  refine ⟨hfrontend, ?_, ?_⟩
  · rw [hcompleted, BitVec.lt_def]
    exact h.completed_le.trans_lt hlt
  · rw [s.beginFlush_keeps.worker]
    refine hleft.imp_right fun ⟨req, hfinal⟩ => ⟨req, hfinal, ?_⟩
    have hasks := h.asks
    rw [hfinal] at hasks
    exact BitVec.lt_def.mpr (hasks.2.trans_lt hlt)

end LoggerSystem

end Femtolog
