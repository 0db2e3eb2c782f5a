import Femtolog.Foundations.Barrier
import Femtolog.Logging.Lifecycle

/-!
# Logging/Flush — `flush` as a barrier

`flush` takes the next request number and waits for `flush_completed_seq_` to reach it.  The worker
reads the request number, then drains the queue, then stores what it read: when it finds the queue
empty, all that was enqueued before the request has been handed over, whatever else has come in
meanwhile.  The numbers are of 64 bits, and the barrier holds as long as they do not run over
(`flush_barrier`); after 2^64 requests the next number is zero, and `flush` does not wait
(`flush_barrier_overrun`).
-/

namespace Femtolog

variable {env : Env}

/-! ## What the worker knows -/

/-- What a place of the worker says about the flush requests, of which `marks` tell how many
messages had been accepted at each, when `done` messages have been handed over. -/
def WorkerMeets (marks : List ℕ) (done : ℕ) : WorkerPc → Prop
  | .loadCompleted req | .peek (.flush req) | .dequeue (.flush req) _ | .process (.flush req) =>
    req.toNat ≤ marks.length
  | .storeCompleted req | .storeFinal req => Met marks done req.toNat
  | _ => True

/-- A new request tells the worker nothing. -/
theorem WorkerMeets.append {marks : List ℕ} {done : ℕ} {pc : WorkerPc}
    (h : WorkerMeets marks done pc) (m : ℕ) : WorkerMeets (marks ++ [m]) done pc := by
  have hlen : marks.length ≤ (marks ++ [m]).length := by simp
  cases pc with
  | loadCompleted req => exact h.trans hlen
  | peek c | dequeue c _ | process c =>
    cases c with
    | flush req => exact h.trans hlen
    | main | drain => trivial
  | storeCompleted req | storeFinal req => exact Met.append h m
  | unstarted | loadShutdown | loadRequested | drained | exited => trivial

/-- **A move of the worker completes only requests that are met.** -/
theorem Goes.meets {b : BackendWorker} {settled : Prop} {pc pc' : WorkerPc} {completed : Size}
    (h : Goes b settled pc pc' completed) {marks : List ℕ} {done done' : ℕ} (hle : done ≤ done')
    (hrequested : b.flushRequestedSeq.toNat = marks.length)
    (hall : settled ∨ pc.PastDrain → ∀ m ∈ marks, m ≤ done)
    (hcompleted : Met marks done b.flushCompletedSeq.toNat) (hpc : WorkerMeets marks done pc) :
    Met marks done' completed.toNat ∧ WorkerMeets marks done' pc' := by
  have hkept : Met marks done' b.flushCompletedSeq.toNat := hcompleted.mono hle
  cases h with
  | shutdown | goOn | notDue => exact ⟨hkept, trivial⟩
  | requested => exact ⟨hkept, hrequested.le⟩
  | due => exact ⟨hkept, hpc⟩
  | @found c | @taken c | @handed c => cases c <;> exact ⟨hkept, hpc⟩
  | @empty c hsettled =>
    cases c with
    | flush req => exact ⟨hkept, (Met.of_forall_le (hall (.inl hsettled)) hpc).mono hle⟩
    | main | drain => exact ⟨hkept, trivial⟩
  | completed => exact ⟨Met.mono hpc hle, trivial⟩
  | drained =>
    exact ⟨hkept, (Met.of_forall_le (hall (.inr trivial)) hrequested.le).mono hle⟩
  | final => exact ⟨Met.mono hpc hle, trivial⟩

namespace LoggerSystem

variable {s₀ s s' : LoggerSystem env} {done flying waiting : List (LogCall env)}
  {frames : List (List Byte)}

/-! ## The invariant -/

/-- **Where the flush requests are**: how many have been issued and completed, when `done` messages
have been handed over. -/
structure Barrier (s : LoggerSystem env) (done : ℕ) : Prop where
  requested : s.backend.flushRequestedSeq.toNat = s.marks.length
  marks : ∀ m ∈ s.marks, m ≤ s.accepted.length
  completed : Met s.marks done s.backend.flushCompletedSeq.toNat
  worker : WorkerMeets s.marks done s.worker
  flushing : ∀ {seq}, s.frontend = .flushing seq →
    seq.toNat = s.marks.length ∧ s.marks.getLast? = some s.accepted.length

namespace Barrier

variable {n : ℕ}

/-- A step of the worker. -/
theorem stepWorker (hr : s.Barrier done.length) (h : Sound s₀ s done flying waiting frames)
    {done' : List (LogCall env)} (hle : done <+: done') (hkeeps : s.WorkerKeeps s')
    (hgoes : Goes s.backend (done = s.accepted) s.worker s'.worker s'.backend.flushCompletedSeq) :
    s'.Barrier done'.length := by
  have hall : done = s.accepted ∨ s.worker.PastDrain → ∀ m ∈ s.marks, m ≤ done.length := by
    intro hdone m hm
    have hdone : done = s.accepted := hdone.elim id h.drained
    exact hdone ▸ hr.marks m hm
  obtain ⟨hcompleted, hworker⟩ :=
    hgoes.meets hle.length_le hr.requested hall hr.completed hr.worker
  exact
    { requested := by rw [hkeeps.requested, hkeeps.marks, hr.requested]
      marks := by rw [hkeeps.marks, hkeeps.accepted]; exact hr.marks
      completed := by rwa [hkeeps.marks]
      worker := by rwa [hkeeps.marks]
      flushing := by rw [hkeeps.frontend, hkeeps.marks, hkeeps.accepted]; exact hr.flushing }

/-- What concerns no request. -/
theorem of_eq (hr : s.Barrier n)
    (hrequested : s'.backend.flushRequestedSeq = s.backend.flushRequestedSeq)
    (hcompleted : s'.backend.flushCompletedSeq = s.backend.flushCompletedSeq)
    (hmarks : s'.marks = s.marks) (haccepted : s.accepted <+: s'.accepted)
    (hworker : WorkerMeets s.marks n s'.worker) (hfrontend : ∀ seq, s'.frontend ≠ .flushing seq) :
    s'.Barrier n where
  requested := by rw [hrequested, hmarks, hr.requested]
  marks m hm := (hr.marks m (hmarks ▸ hm)).trans haccepted.length_le
  completed := by rw [hcompleted, hmarks]; exact hr.completed
  worker := by rwa [hmarks]
  flushing h := absurd h (hfrontend _)

/-- A call of `log`. -/
theorem beginLog (hr : s.Barrier n) {call : LogCall env} (hs : s.beginLog call = some s') :
    s'.Barrier n := by
  obtain ⟨result, -, rfl⟩ := Option.map_eq_some_iff.mp hs
  refine hr.of_eq rfl rfl rfl ?_ hr.worker ?_
  · dsimp only
    split_ifs
    · exact List.prefix_append _ _
    · exact List.prefix_refl _
  · intro seq
    dsimp only
    split_ifs <;> simp

/-- A call of `flush`. -/
theorem beginFlush (hr : s.Barrier n) (hfew : s.marks.length + 1 < 2 ^ 64) :
    s.beginFlush.Barrier n := by
  rw [LoggerSystem.beginFlush]
  split_ifs with hrunning
  · have hseq : (s.backend.flushRequestedSeq + 1#64).toNat = s.marks.length + 1 := by
      rw [BitVec.toNat_add, hr.requested]
      exact Nat.mod_eq_of_lt hfew
    have hlen : (s.marks ++ [s.accepted.length]).length = s.marks.length + 1 := by simp
    exact
      { requested := hseq.trans hlen.symm
        marks := by
          intro m hm
          rcases List.mem_append.mp hm with hm | hm
          · exact hr.marks m hm
          · exact (List.mem_singleton.mp hm).le
        completed := hr.completed.append _
        worker := hr.worker.append _
        flushing := by
          rintro seq ⟨⟩
          exact ⟨hseq.trans hlen.symm, List.getLast?_concat⟩ }
  · exact hr

/-- A call of `start_worker`. -/
theorem beginStart (hr : s.Barrier n) (hs : s.beginStart = some s') : s'.Barrier n := by
  rw [LoggerSystem.beginStart] at hs
  split_ifs at hs with hassert
  obtain rfl := Option.some.inj hs
  exact hr.of_eq rfl rfl rfl (List.prefix_refl _) trivial (by simp)

/-- A call of `stop`. -/
theorem beginStop (hr : s.Barrier n) (terminate : Bool) : (s.beginStop terminate).Barrier n := by
  rw [LoggerSystem.beginStop]
  split_ifs with hrunning hterminate
  · exact hr.of_eq rfl rfl rfl (List.prefix_refl _) hr.worker (by simp)
  · exact hr.of_eq rfl rfl rfl (List.prefix_refl _) hr.worker (by simp)
  · exact hr.of_eq rfl rfl rfl (List.prefix_refl _) hr.worker (by simp)

/-- A step of a call. -/
theorem stepFrontend (hr : s.Barrier n) (hs : s.stepFrontend = some s') : s'.Barrier n := by
  rw [LoggerSystem.stepFrontend] at hs
  cases hfrontend : s.frontend with
  | idle | terminated =>
    rw [hfrontend] at hs
    cases hs
  | starting =>
    rw [hfrontend] at hs
    obtain rfl := Option.some.inj hs
    exact hr.of_eq rfl rfl rfl (List.prefix_refl _) hr.worker (by simp)
  | flushing seq =>
    rw [hfrontend] at hs
    dsimp only at hs
    split_ifs at hs with hwait
    · exact Option.some.inj hs ▸ hr
    · obtain rfl := Option.some.inj hs
      exact hr.of_eq rfl rfl rfl (List.prefix_refl _) hr.worker (by simp)
  | stopping =>
    rw [hfrontend] at hs
    exact Option.some.inj hs ▸ hr.beginStop true
  | joining terminate =>
    rw [hfrontend] at hs
    dsimp only at hs
    split_ifs at hs with hexited hterminate
    · obtain rfl := Option.some.inj hs
      exact hr.of_eq rfl rfl rfl (List.prefix_refl _) hr.worker (by simp)
    · obtain rfl := Option.some.inj hs
      exact hr.of_eq rfl rfl rfl (List.prefix_refl _) hr.worker (by simp)

end Barrier

/-! ## Sessions -/

/-- The worker is started once. -/
def OneStart (s : LoggerSystem env) : Action env → Prop
  | .startWorker => s.worker = .unstarted
  | _ => True

/-- The request numbers do not run over. -/
def FewFlushes (s : LoggerSystem env) : Action env → Prop
  | .flush => s.marks.length + 1 < 2 ^ 64
  | _ => True

instance (s : LoggerSystem env) : (a : Action env) → Decidable (s.OneStart a)
  | .startWorker => inferInstanceAs (Decidable (s.worker = .unstarted))
  | .log _ | .flush | .stopWorker | .setLevel _ | .frontend | .worker _ => .isTrue trivial

instance (s : LoggerSystem env) : (a : Action env) → Decidable (s.FewFlushes a)
  | .flush => inferInstanceAs (Decidable (s.marks.length + 1 < 2 ^ 64))
  | .log _ | .startWorker | .stopWorker | .setLevel _ | .frontend | .worker _ => .isTrue trivial

/-- The first start finds the flag down. -/
theorem Sound.freshStart (h : Sound s₀ s done flying waiting frames) {a : Action env}
    (hone : s.OneStart a) : s.FreshStart a := by
  cases a with
  | startWorker =>
    have hunstarted : s.worker = .unstarted := hone
    cases h.lifecycle with
    | fresh _ _ _ hdown _ | starting _ _ _ hdown | running _ _ _ hdown => exact hdown
    | stopping _ _ hworker _ => exact absurd hunstarted hworker
    | stopped _ _ hworker _ => rw [hunstarted] at hworker; cases hworker
  | log | flush | stopWorker | setLevel | frontend | worker => trivial

/-- **Every step of a session keeps both invariants.** -/
theorem Barrier.step (hr : s.Barrier done.length) (h : Sound s₀ s done flying waiting frames)
    {a : Action env} (hone : s.OneStart a) (hfew : s.FewFlushes a) (hs : s.step a = some s') :
    ∃ done' flying' waiting' frames', Sound s₀ s' done' flying' waiting' frames' ∧
      s'.Barrier done'.length := by
  have hfresh := h.freshStart hone
  cases step_begins hs with
  | worker hs =>
    obtain ⟨done', flying', waiting', frames', h', hle, hkeeps, hgoes⟩ := h.stepWorker hs
    exact ⟨done', flying', waiting', frames', h', hr.stepWorker h hle hkeeps hgoes⟩
  | frontend hs => exact ⟨_, _, _, _, h.stepFrontend hs, hr.stepFrontend hs⟩
  | log hidle hs =>
    obtain ⟨waiting', frames', h'⟩ := h.beginLog hidle hs
    exact ⟨_, _, _, _, h', hr.beginLog hs⟩
  | flush hidle => exact ⟨_, _, _, _, h.beginFlush hidle, hr.beginFlush hfew⟩
  | startWorker hidle hs => exact ⟨_, _, _, _, h.beginStart hidle hfresh hs, hr.beginStart hs⟩
  | stopWorker hidle => exact ⟨_, _, _, _, h.beginStop hidle, hr.beginStop false⟩
  | setLevel hidle =>
    exact ⟨_, _, _, _, h.setLevel _,
      hr.of_eq rfl rfl rfl (List.prefix_refl _) hr.worker (by simp [hidle])⟩

/-- The logger as it is before the first start. -/
theorem barrier_initial (threadId : BitVec 32) (options : FemtologOptions) (queue : SpscQueue)
    (sinks : ℕ) : (initial env threadId options queue sinks).Barrier 0 where
  requested := rfl
  marks := nofun
  completed := .zero _ _
  worker := trivial
  flushing := nofun

/-! ## What a flush is worth -/

/-- Every sink has been handed the first `n` messages. -/
def Passed (s : LoggerSystem env) (n : ℕ) : Prop :=
  ∀ sink ∈ s.backend.sinks,
    List.Forall₂ (LogCall.Handed s.logger.threadId) (s.accepted.take n) (sink.take n)

/-- The step ends a call of `flush`, at once or after it has waited. -/
def FlushReturns (s : LoggerSystem env) (a : Action env) (s' : LoggerSystem env) : Prop :=
  s.step a = some s' ∧ s'.frontend = .idle ∧
    (a = .flush ∨ a = .frontend ∧ ∃ seq, s.frontend = .flushing seq)

/-- **What a flush promises** in a state: the requests whose numbers `flush_completed_seq_` has
reached are met, and all that has been accepted has been passed to every registered sink when
`flush` returns. -/
structure KeepsBarrier (s₀ s : LoggerSystem env) : Prop where
  completed : ∀ {i m : ℕ}, s.marks[i]? = some m → i < s.backend.flushCompletedSeq.toNat → s.Passed m
  returned : ∀ {a s'}, s.FlushReturns a s' →
    s'.Passed s'.accepted.length ∧ s'.backend.sinks.length = s₀.backend.sinks.length

/-- What has been handed over has been passed to every sink. -/
theorem Flow.passed (h : s.Flow done flying waiting frames) {m : ℕ} (hm : m ≤ done.length) :
    s.Passed m := by
  intro sink hsink
  rw [h.accepted, List.take_append_of_le_length hm]
  exact List.forall₂_take m (h.sinks sink hsink)

/-- A flush that waits returns when its request has been met. -/
theorem Barrier.le_done (hr : s.Barrier done.length) {seq : Size}
    (hfrontend : s.frontend = .flushing seq) (hdone : ¬s.backend.flushCompletedSeq < seq) :
    s.accepted.length ≤ done.length := by
  obtain ⟨hseq, hlast⟩ := hr.flushing hfrontend
  have hle : s.marks.length ≤ s.backend.flushCompletedSeq.toNat := by
    rw [← hseq]
    exact Nat.le_of_not_lt hdone
  have hall : Met s.marks done.length s.marks.length :=
    Nat.le_antisymm hr.completed.issued hle ▸ hr.completed
  exact hall.le_of_getLast? hlast

/-- **All accepted messages have been passed on when `flush` returns.** -/
theorem Barrier.returned (hr : s.Barrier done.length) (h : Sound s₀ s done flying waiting frames)
    {a : Action env} (hreturns : s.FlushReturns a s') : s'.Passed s'.accepted.length := by
  obtain ⟨hs, hidle', rfl | ⟨rfl, seq, hfrontend⟩⟩ := hreturns
  · cases step_begins hs with
    | flush hidle =>
      have hrunning : s.running ≠ true := by
        intro hrunning
        rw [LoggerSystem.beginFlush, if_pos hrunning] at hidle'
        cases hidle'
      rw [LoggerSystem.beginFlush, if_neg hrunning]
      have hall := h.handedAll (fun hstatus => hrunning (decide_eq_true hstatus))
        (by simp [hidle])
      intro sink hsink
      have hsink := hall.sinks sink hsink
      rwa [List.take_length, hsink.length_eq, List.take_length]
  · cases step_begins hs with
    | frontend hs =>
      rw [LoggerSystem.stepFrontend, hfrontend] at hs
      dsimp only at hs
      split_ifs at hs with hwait
      · rw [← Option.some.inj hs, hfrontend] at hidle'
        cases hidle'
      · obtain rfl := Option.some.inj hs
        exact h.flow.passed (hr.le_done hfrontend hwait)

/-- **`flush` is a barrier** in every session of one worker, whatever comes in while it drains, as
long as the request numbers do not run over. -/
theorem flush_barrier {mem : Allocator} {threadId : BitVec 32} {options : FemtologOptions}
    {queue : SpscQueue} {sinks : ℕ}
    (hqueue : SpscQueue.reserve mem options.spscQueueSize = some queue)
    (hrun : Reaches step (fun s a => s.OneStart a ∧ s.FewFlushes a)
      (initial env threadId options queue sinks) s) :
    KeepsBarrier (initial env threadId options queue sinks) s := by
  have hinit : Sound (initial env threadId options queue sinks)
      (initial env threadId options queue sinks) [] [] [] [] :=
    sound_initial (SpscQueue.hasBytes_of_reserve hqueue)
  obtain ⟨done, flying, waiting, frames, h, hr⟩ := hrun.invariant
    (I := fun s => ∃ done flying waiting frames,
      Sound (initial env threadId options queue sinks) s done flying waiting frames ∧
        s.Barrier done.length)
    ⟨[], [], [], [], hinit, barrier_initial threadId options queue sinks⟩
    fun ⟨_, _, _, _, h, hr⟩ hguard hs => hr.step h hguard.1 hguard.2 hs
  constructor
  · intro i m hm hi
    exact h.flow.passed (hr.completed.le_of_getElem? hi hm)
  · intro a s' hreturns
    have hfresh : s.FreshStart a := by
      obtain ⟨-, -, rfl | ⟨rfl, -⟩⟩ := hreturns <;> trivial
    obtain ⟨_, _, _, _, h', -⟩ := h.step hfresh hreturns.1
    exact ⟨hr.returned h hreturns, h'.built.sinks⟩

/-- Two flushes, each after a message, up to the return of the second. -/
theorem flush_barrier_two : ∃ queue s, SpscQueue.reserve .zeroed 64#64 = some queue
    ∧ execute step (fun s a => decide (s.OneStart a ∧ s.FewFlushes a))
        (initial .wide 1#32 { spscQueueSize := 64#64, backendDequeueBufferSize := 64 } queue 2)
        ([.startWorker, .frontend, .log (.literal .kInfo [0x68, 0x69]), .flush]
          ++ List.replicate 8 (.worker 7#64)
          ++ [.frontend, .log (.literal .kWarn [0x68]), .flush] ++ List.replicate 8 (.worker 8#64))
      = some s
    ∧ s.frontend = .flushing 2#64 ∧ s.worker = .peek .main
    ∧ KeepsBarrier (initial .wide 1#32
        { spscQueueSize := 64#64, backendDequeueBufferSize := 64 } queue 2) s := by
  obtain ⟨s, hs, hpcs⟩ : ∃ s, execute step (fun s a => decide (s.OneStart a ∧ s.FewFlushes a))
      (initial .wide 1#32 { spscQueueSize := 64#64, backendDequeueBufferSize := 64 }
        { buffer := some (List.replicate 128 0), capacity := 64#64, mask := 63#64 } 2)
      ([.startWorker, .frontend, .log (.literal .kInfo [0x68, 0x69]), .flush]
        ++ List.replicate 8 (.worker 7#64)
        ++ [.frontend, .log (.literal .kWarn [0x68]), .flush] ++ List.replicate 8 (.worker 8#64))
      = some s ∧ (s.frontend, s.worker) = (.flushing 2#64, .peek .main) :=
    Option.map_eq_some_iff.mp (by decide +kernel)
  have hq : SpscQueue.reserve .zeroed 64#64
      = some { buffer := some (List.replicate 128 0), capacity := 64#64, mask := 63#64 } := rfl
  obtain ⟨hfrontend, hworker⟩ := Prod.mk.inj hpcs
  exact ⟨_, s, hq, hs, hfrontend, hworker,
    flush_barrier hq (Reaches.of_execute of_decide_eq_true hs)⟩

/-! ## Flushes of an empty queue -/

/-- A logger at rest: it runs, nothing is in the queue, and `n` flushes have been completed. -/
structure Resting (s : LoggerSystem env) (n : Size) : Prop where
  frontend : s.frontend = .idle
  worker : s.worker = .loadShutdown
  status : s.backend.status = .kRunning
  down : s.backend.shutdownRequired = false
  requested : s.backend.flushRequestedSeq = n
  completed : s.backend.flushCompletedSeq = n
  empty : s.logger.queue.peekBytes 2#64 = (.kUnderflow, [])

/-- **A flush of a logger at rest returns**, and leaves it at rest. -/
theorem Resting.flush {n : Size} (h : s.Resting n) (hn : n < n + 1#64) :
    ∃ t : LoggerSystem env, Reaches step OneStart s t ∧ t.Resting (n + 1#64) ∧
      t.logger = s.logger ∧ t.accepted = s.accepted ∧ t.backend.sinks = s.backend.sinks := by
  have hone : ∀ {s : LoggerSystem env} {a : Action env}, (!a matches .startWorker) = true →
      s.OneStart a := by
    intro s a ha
    cases a <;> trivial
  have hrun : execute step (fun _ a => !a matches .startWorker) s
      (.flush :: List.replicate 6 (.worker 0#64) ++ [.frontend])
      = some { s with
          backend := { s.backend with
            flushRequestedSeq := n + 1#64, flushCompletedSeq := n + 1#64 }
          marks := s.marks ++ [s.accepted.length] } := by
    obtain ⟨hfrontend, hworker, hstatus, hdown, hrequested, hcompleted, hempty⟩ := h
    simp [execute, step, beginFlush, running, stepWorker, stepFrontend, Caller.failed,
      List.replicate, hfrontend, hworker, hstatus, hdown, hrequested, hcompleted, hempty, hn]
  exact ⟨_, Reaches.of_execute hone hrun,
    ⟨h.frontend, h.worker, h.status, h.down, rfl, rfl, h.empty⟩, rfl, rfl, rfl⟩

/-- As many flushes as the request numbers can count. -/
theorem Resting.flushes (h : s.Resting 0#64) {n : ℕ} (hn : n < 2 ^ 64) :
    ∃ t : LoggerSystem env, Reaches step OneStart s t ∧ t.Resting (BitVec.ofNat 64 n) ∧
      t.logger = s.logger ∧ t.accepted = s.accepted ∧ t.backend.sinks = s.backend.sinks := by
  induction n with
  | zero => exact ⟨s, .refl, h, rfl, rfl, rfl⟩
  | succ n ih =>
    obtain ⟨t, hrun, ht, hlogger, haccepted, hsinks⟩ := ih (by omega)
    have hlt : BitVec.ofNat 64 n < BitVec.ofNat 64 n + 1#64 := by
      rw [BitVec.lt_def, ← BitVec.ofNat_add, toNat_ofNat_of_lt (by omega),
        toNat_ofNat_of_lt (by omega)]
      omega
    obtain ⟨t', hrun', ht', hlogger', haccepted', hsinks'⟩ := ht.flush hlt
    rw [← BitVec.ofNat_add] at ht'
    exact ⟨t', hrun.trans hrun', ht', hlogger'.trans hlogger, haccepted'.trans haccepted,
      hsinks'.trans hsinks⟩

/-- Inside a flush that has drawn the number zero. -/
def flushingZero (s : LoggerSystem env) : LoggerSystem env :=
  { s with
    backend := { s.backend with flushRequestedSeq := 0#64 }
    frontend := .flushing 0#64
    marks := s.marks ++ [s.accepted.length] }

/-- **A flush whose number runs over** draws the number zero, and does not wait. -/
theorem flush_overrun (hidle : s.frontend = .idle) (hrunning : s.running = true)
    (hzero : s.backend.flushRequestedSeq + 1#64 = 0#64) :
    s.step .flush = some s.flushingZero ∧
      s.flushingZero.FlushReturns .frontend { s.flushingZero with frontend := .idle } := by
  refine ⟨?_, ?_, rfl, .inr ⟨rfl, _, rfl⟩⟩
  · rw [step, if_pos hidle, beginFlush, if_pos hrunning, hzero]
    rfl
  · change (if s.backend.flushCompletedSeq < 0#64 then some s.flushingZero else _) = _
    exact if_neg BitVec.not_lt_zero

/-- A logger with a small queue and one sink. -/
def small : LoggerSystem .wide :=
  initial .wide 1#32 { spscQueueSize := 64#64 }
    { buffer := some (List.replicate 128 0), capacity := 64#64, mask := 63#64 } 1

/-- …and its worker has been started. -/
def smallRunning : LoggerSystem .wide :=
  { small with
    backend := { small.backend with status := .kRunning }
    worker := .loadShutdown }

/-- **After 2^64 - 1 flushes the next one does not wait** — its number is zero, and the message
before it is still in the queue when it returns. -/
theorem flush_barrier_overrun :
    ¬∀ (env : Env) (mem : Allocator) (threadId : BitVec 32) (options : FemtologOptions)
      (queue : SpscQueue) (sinks : ℕ) (s : LoggerSystem env),
      SpscQueue.reserve mem options.spscQueueSize = some queue →
      Reaches step OneStart (initial env threadId options queue sinks) s →
      KeepsBarrier (initial env threadId options queue sinks) s := by
  intro h
  have hstart : execute step (fun s a => decide (s.OneStart a)) small [.startWorker, .frontend]
      = some smallRunning := rfl
  have hrest : smallRunning.Resting 0#64 := ⟨rfl, rfl, rfl, rfl, rfl, rfl, by decide +kernel⟩
  obtain ⟨t, hflushes, ht, hlogger, haccepted, hsinks⟩ := hrest.flushes
    (n := 18446744073709551615) (by norm_num)
  -- one message goes into the queue
  obtain ⟨result, hlog, hresult⟩ : ∃ result,
      smallRunning.logger.log true (.literal .kInfo [0x68] : LogCall .wide) = some result ∧
      (result.accepted.isSome, result.terminate) = (true, false) :=
    Option.map_eq_some_iff.mp (by decide +kernel)
  obtain ⟨hsome, hterminate⟩ := Prod.mk.inj hresult
  obtain ⟨u, hlogged, hfrontend, hbackend, hone⟩ : ∃ u, t.step (.log (.literal .kInfo [0x68]))
      = some u ∧ u.frontend = .idle ∧ u.backend = t.backend ∧ u.accepted.length = 1 := by
    have hrunning : t.running = true := decide_eq_true ht.status
    rw [step, if_pos ht.frontend, beginLog, hlogger, hrunning, hlog, Option.map_some, hsome,
      hterminate, haccepted]
    exact ⟨_, rfl, rfl, rfl, rfl⟩
  -- the next flush has the number zero
  have hzero : u.backend.flushRequestedSeq + 1#64 = 0#64 := by
    rw [hbackend, ht.requested]
    decide
  obtain ⟨hflushed, hreturns⟩ := flush_overrun hfrontend
    (decide_eq_true (hbackend ▸ ht.status)) hzero
  have hquiet : Reaches step OneStart small t :=
    (Reaches.of_execute of_decide_eq_true hstart).trans hflushes
  have hrun : Reaches step OneStart small u.flushingZero :=
    .tail (a := .flush) (.tail (a := .log _) hquiet trivial hlogged) trivial hflushed
  have hkeeps := h .wide .zeroed 1#32 { spscQueueSize := 64#64 } _ 1 u.flushingZero rfl hrun
  have hmem : [] ∈ u.flushingZero.backend.sinks := by
    have hsinks₁ : smallRunning.backend.sinks = [[]] := rfl
    change [] ∈ u.backend.sinks
    rw [hbackend, hsinks, hsinks₁]
    exact List.mem_singleton.mpr rfl
  have hpassed := (hkeeps.returned hreturns).1 [] hmem
  rw [List.take_nil, List.forall₂_nil_right_iff, List.take_length] at hpassed
  have hnone : u.accepted.length = 0 := congrArg List.length hpassed
  omega

end LoggerSystem

end Femtolog
