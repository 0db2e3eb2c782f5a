import Femtolog.Logging.DequeueBuffer
import Femtolog.Logging.Flush

/-!
# Logging/Bursts — when a message is dropped, and how not to lose any

A call that passes the filter is dropped for one of two reasons: its message is too long for an
entry, or the queue lacks the room for it (`Flow.accepts_iff`).  How much room there is depends on
how far the worker has come, so which calls are dropped depends on the schedule.

A frontend can rule that out: `flush` returns with the queue empty, so what is logged between two
flushes is accepted under every schedule as long as it fits the queue together, whatever the worker
has taken off meanwhile (`bursts_lose_nothing`).
-/

namespace Femtolog

variable {env : Env}

/-! ## Entries -/

/-- The bytes the entry of a call takes in the queue. -/
def LogCall.entrySize (call : LogCall env) : ℕ := sizeofLogEntry + call.messageSize

/-- …and the entries of some calls. -/
def entriesSize (calls : List (LogCall env)) : ℕ := (calls.map LogCall.entrySize).sum

theorem LogCall.length_payload {call : LogCall env} {payload : List Byte}
    (h : call.payload = some payload) : payload.length = call.messageSize := by
  rw [LogCall.payload] at h
  rw [LogCall.messageSize]
  split_ifs at h ⊢ with hargs
  · rw [← Option.some.inj h]
  · obtain ⟨rs, hrs, rfl⟩ := Option.map_eq_some_iff.mp h
    rw [List.length_append, SerializedArgsHeader.length_bytes, length_records hrs]

/-- A frame is as long as the entry of its call. -/
theorem LogCall.Framed.length_entry {call : LogCall env} {threadId : BitVec 32} {frame : List Byte}
    (h : call.Framed threadId frame) :
    frame.length = call.entrySize ∧ call.messageSize < kMaxPayloadSize := by
  obtain ⟨payload, hpayload, hshort, hlength⟩ := h.length_eq
  rw [LogCall.length_payload hpayload] at hshort hlength
  exact ⟨hlength, hshort⟩

/-- The frames in the queue are as long as the entries of their calls. -/
theorem length_flatten_framed {threadId : BitVec 32} {calls : List (LogCall env)}
    {frames : List (List Byte)} (h : List.Forall₂ (LogCall.Framed threadId) calls frames) :
    frames.flatten.length = entriesSize calls := by
  induction h with
  | nil => rfl
  | cons hframed _ ih =>
    rw [List.flatten_cons, List.length_append, ih, hframed.length_entry.1]
    exact List.sum_cons.symm

theorem entriesSize_append (calls calls' : List (LogCall env)) :
    entriesSize (calls ++ calls') = entriesSize calls + entriesSize calls' := by
  rw [entriesSize, List.map_append, List.sum_append]
  rfl

namespace LoggerSystem

variable {s₀ s s' : LoggerSystem env} {done flying waiting : List (LogCall env)}
  {frames : List (List Byte)}

/-! ## When a message is dropped -/

/-- **A call that passes the filter is accepted exactly if its message is short and its entry fits
the queue** behind those that wait there. -/
theorem Flow.accepts_iff (h : s.Flow done flying waiting frames) {call : LogCall env}
    (hpass : s.logger.Passes s.running call) (hs : s.beginLog call = some s') :
    (s'.accepted = s.accepted ++ [call] ↔ call.messageSize < kMaxPayloadSize
      ∧ entriesSize (waiting ++ [call]) ≤ s.logger.queue.capacity.toNat)
      ∧ (s'.accepted = s.accepted ++ [call] → s'.logger.droppedCount = s.logger.droppedCount) := by
  obtain ⟨result, hresult, rfl⟩ := Option.map_eq_some_iff.mp hs
  have hsize : entriesSize (waiting ++ [call])
      = frames.flatten.length + (sizeofLogEntry + call.messageSize) := by
    rw [entriesSize_append, ← length_flatten_framed h.waiting]
    rfl
  have haccepted : ((if result.accepted.isSome then s.accepted ++ [call] else s.accepted)
      = s.accepted ++ [call]) ↔ result.accepted.isSome = true := by
    split_ifs with hsome
    · exact iff_of_true rfl hsome
    · exact iff_of_false (fun heq => List.cons_ne_nil _ _ (List.self_eq_append_right.mp heq)) hsome
  refine ⟨haccepted.trans ?_, fun hnew => ?_⟩
  · by_cases hshort : call.messageSize < kMaxPayloadSize
    · obtain ⟨result', frame, hresult', hlaid⟩ :=
        InternalLogger.log_of_short h.queue hpass hshort
      obtain rfl := Option.some.inj (hresult.symm.trans hresult')
      rw [hlaid.accepted, hlaid.framed.length_entry.1, and_iff_right hshort, hsize]
      rw [LogCall.entrySize]
      split_ifs with hfits
      · exact iff_of_true rfl hfits
      · exact iff_of_false (by decide) hfits
    · refine iff_of_false (fun hsome => hshort ?_) fun hand => hshort hand.1
      cases InternalLogger.log_spec h.queue hresult with
      | ignored | dropped => cases hsome
      | enqueued _ _ _ _ hentry hframe _ _ =>
        exact LogCall.Framed.length_entry ⟨_, hentry, hframe⟩ |>.2
  · have hsome := haccepted.mp hnew
    cases InternalLogger.log_spec h.queue hresult with
    | ignored | dropped => cases hsome
    | enqueued _ _ _ hdropped _ _ _ _ => exact hdropped

/-! ## Bursts -/

/-- The calls accepted since the last flush. -/
def sinceFlush (s : LoggerSystem env) : List (LogCall env) :=
  s.accepted.drop (s.marks.getLast?.getD 0)

/-- A call that passes the filter has a short message, and fits the queue together with all that has
been accepted since the last flush. -/
def Bursts (s : LoggerSystem env) : Action env → Prop
  | .log call => s.logger.Passes s.running call → call.messageSize < kMaxPayloadSize
      ∧ entriesSize (s.sinceFlush ++ [call]) ≤ s.logger.queue.capacity.toNat
  | _ => True

instance (l : InternalLogger) (running : Bool) (call : LogCall env) :
    Decidable (l.Passes running call) :=
  inferInstanceAs (Decidable (¬l.level.toByte < call.level.toByte ∧ running = true))

instance (s : LoggerSystem env) : (a : Action env) → Decidable (s.Bursts a)
  | .log call => inferInstanceAs (Decidable (s.logger.Passes s.running call → _ ∧ _))
  | .flush | .startWorker | .stopWorker | .setLevel _ | .frontend | .worker _ => .isTrue trivial

/-- **Nothing has been lost**: no message has been dropped, and no flush is waited for that has
returned. -/
structure Lossless (s : LoggerSystem env) (done : ℕ) : Prop where
  dropped : s.logger.droppedCount = 0#64
  settled : (∀ seq, s.frontend ≠ .flushing seq) → ∀ m ∈ s.marks, m ≤ done

/-- What waits in the queue has been accepted since the last flush. -/
theorem Lossless.waiting_le (hl : s.Lossless done.length)
    (h : s.Flow done flying waiting frames) (hidle : s.frontend = .idle) :
    entriesSize waiting ≤ entriesSize s.sinceFlush := by
  have hmark : s.marks.getLast?.getD 0 ≤ done.length := by
    cases hlast : s.marks.getLast? with
    | none => exact Nat.zero_le _
    | some m =>
      exact hl.settled (by simp [hidle]) m (List.mem_of_getLast? hlast)
  rw [sinceFlush, h.accepted, List.drop_append_of_le_length hmark, entriesSize_append,
    entriesSize_append]
  omega

/-- A call within the burst is accepted. -/
theorem Lossless.accepts (hl : s.Lossless done.length) (h : s.Flow done flying waiting frames)
    (hidle : s.frontend = .idle) {call : LogCall env} (hpass : s.logger.Passes s.running call)
    (hburst : s.Bursts (.log call)) (hs : s.beginLog call = some s') :
    s'.accepted = s.accepted ++ [call] ∧ s'.logger.droppedCount = 0#64 := by
  obtain ⟨hshort, hroom⟩ := hburst hpass
  obtain ⟨hiff, hcount⟩ := h.accepts_iff hpass hs
  have hle := hl.waiting_le h hidle
  have hnew : s'.accepted = s.accepted ++ [call] := by
    rw [entriesSize_append] at hroom
    refine hiff.mpr ⟨hshort, ?_⟩
    rw [entriesSize_append]
    omega
  exact ⟨hnew, (hcount hnew).trans hl.dropped⟩

/-- Only a log call counts a message as dropped. -/
theorem droppedCount_stepWorker {now : Size} (hs : s.stepWorker now = some s') :
    s'.logger.droppedCount = s.logger.droppedCount := by
  by_cases hpc : ∃ c payloadLen, s.worker = .dequeue c payloadLen
  · obtain ⟨c, payloadLen, hpc⟩ := hpc
    rw [stepWorker, hpc] at hs
    dsimp only at hs
    split at hs
    · split_ifs at hs
      rw [← Option.some.inj hs]
    · rw [← Option.some.inj hs]
  · rw [logger_stepWorker hs fun c payloadLen hc => hpc ⟨c, payloadLen, hc⟩]

theorem logger_beginStop (s : LoggerSystem env) (terminate : Bool) :
    (s.beginStop terminate).logger = s.logger := by
  rw [beginStop]
  split_ifs <;> rfl

/-- A step inside a call of the frontend leaves the logger and the marks. -/
theorem logger_stepFrontend (hs : s.stepFrontend = some s') :
    s'.logger = s.logger ∧ s'.marks = s.marks := by
  rw [stepFrontend] at hs
  cases hfrontend : s.frontend with
  | idle | terminated =>
    rw [hfrontend] at hs
    cases hs
  | starting =>
    rw [hfrontend] at hs
    rw [← Option.some.inj hs]
    exact ⟨rfl, rfl⟩
  | flushing seq =>
    rw [hfrontend] at hs
    dsimp only at hs
    split_ifs at hs <;> rw [← Option.some.inj hs]
    · exact ⟨rfl, rfl⟩
    · exact ⟨rfl, rfl⟩
  | stopping =>
    rw [hfrontend] at hs
    rw [← Option.some.inj hs]
    refine ⟨s.logger_beginStop true, ?_⟩
    rw [beginStop]
    split_ifs <;> rfl
  | joining terminate =>
    rw [hfrontend] at hs
    dsimp only at hs
    split_ifs at hs <;> rw [← Option.some.inj hs]
    · exact ⟨rfl, rfl⟩
    · exact ⟨rfl, rfl⟩

/-- **A flush that returns has all its requests met**, and leaves none to be waited for. -/
theorem Lossless.stepFrontend (hl : s.Lossless done.length) (hr : s.Barrier done.length)
    (hs : s.stepFrontend = some s') : s'.Lossless done.length := by
  obtain ⟨hlogger, hmarks⟩ := logger_stepFrontend hs
  refine ⟨by rw [hlogger, hl.dropped], fun hfree => ?_⟩
  rw [hmarks]
  by_cases hflushing : ∃ seq, s.frontend = .flushing seq
  · obtain ⟨seq, hflushing⟩ := hflushing
    rw [LoggerSystem.stepFrontend, hflushing] at hs
    dsimp only at hs
    split_ifs at hs with hwait
    · exact absurd (Option.some.inj hs ▸ hflushing) (hfree seq)
    · exact fun m hm => (hr.marks m hm).trans (hr.le_done hflushing hwait)
  · exact hl.settled fun seq hseq => hflushing ⟨seq, hseq⟩

/-- **Every step within its burst loses nothing.** -/
theorem Lossless.step (hl : s.Lossless done.length) (hr : s.Barrier done.length)
    (h : Sound s₀ s done flying waiting frames) {a : Action env} (hone : s.OneStart a)
    (hfew : s.FewFlushes a) (hburst : s.Bursts a) (hs : s.step a = some s') :
    ∃ done' flying' waiting' frames', Sound s₀ s' done' flying' waiting' frames' ∧
      s'.Barrier done'.length ∧ s'.Lossless done'.length := by
  have hfresh := h.freshStart hone
  cases step_begins hs with
  | worker hs =>
    obtain ⟨done', flying', waiting', frames', h', hle, hkeeps, hgoes⟩ := h.stepWorker hs
    refine ⟨done', flying', waiting', frames', h', hr.stepWorker h hle hkeeps hgoes,
      (droppedCount_stepWorker hs).trans hl.dropped, fun hfree => ?_⟩
    rw [hkeeps.marks]
    rw [hkeeps.frontend] at hfree
    exact fun m hm => (hl.settled hfree m hm).trans hle.length_le
  | frontend hs => exact ⟨_, _, _, _, h.stepFrontend hs, hr.stepFrontend hs, hl.stepFrontend hr hs⟩
  | @log call _ hidle hs =>
    obtain ⟨waiting', frames', h'⟩ := h.beginLog hidle hs
    refine ⟨_, _, _, _, h', hr.beginLog hs, ?_, ?_⟩
    · by_cases hpass : s.logger.Passes s.running call
      · exact (hl.accepts h.flow hidle hpass hburst hs).2
      · obtain ⟨result, hresult, rfl⟩ := Option.map_eq_some_iff.mp hs
        cases InternalLogger.log_spec h.flow.queue hresult with
        | ignored => exact hl.dropped
        | dropped hyes | enqueued hyes => exact absurd hyes hpass
    · obtain ⟨result, -, rfl⟩ := Option.map_eq_some_iff.mp hs
      exact fun _ => hl.settled (by simp [hidle])
  | flush hidle =>
    refine ⟨_, _, _, _, h.beginFlush hidle, hr.beginFlush hfew, ?_, ?_⟩
    · rw [LoggerSystem.beginFlush]
      split_ifs <;> exact hl.dropped
    · rw [LoggerSystem.beginFlush]
      split_ifs
      · exact fun hfree => absurd rfl (hfree _)
      · exact fun _ => hl.settled (by simp [hidle])
  | startWorker hidle hs =>
    refine ⟨_, _, _, _, h.beginStart hidle hfresh hs, hr.beginStart hs, ?_, ?_⟩ <;>
      (rw [LoggerSystem.beginStart] at hs; split_ifs at hs; rw [← Option.some.inj hs])
    · exact hl.dropped
    · exact fun _ => hl.settled (by simp [hidle])
  | stopWorker hidle =>
    refine ⟨_, _, _, _, h.beginStop hidle, hr.beginStop false, ?_, ?_⟩
    · rw [logger_beginStop]
      exact hl.dropped
    · rw [LoggerSystem.beginStop]
      split_ifs <;> exact fun _ => hl.settled (by simp [hidle])
  | setLevel hidle =>
    exact ⟨_, _, _, _, h.setLevel _,
      hr.of_eq rfl rfl rfl (List.prefix_refl _) hr.worker (by simp [hidle]), hl.dropped,
      fun _ => hl.settled (by simp [hidle])⟩

/-! ## Runs -/

/-- **What bursts promise** in a state: no message has been dropped, none of the burst will be, and
all of them have been handed over when `stop` returns. -/
structure LosesNothing (s : LoggerSystem env) : Prop where
  dropped : s.logger.droppedCount = 0#64
  accepts : ∀ {call s'}, s.logger.Passes s.running call → s.Bursts (.log call) →
    s.step (.log call) = some s' →
      s'.accepted = s.accepted ++ [call] ∧ s'.logger.droppedCount = 0#64
  /-- The whole queue is free for the next burst. -/
  returned : ∀ {a s'}, s.FlushReturns a s' → s'.logger.queue.size = 0#64
  stopped : ∀ {a s'}, s.StopReturns a s' → s'.HandedAll ∧ s'.logger.droppedCount = 0#64

/-- When a flush returns, the worker has taken everything off the queue. -/
theorem Sound.size_of_returned (h : Sound s₀ s done flying waiting frames)
    (hr : s.Barrier done.length) {a : Action env} (hreturns : s.FlushReturns a s') :
    s'.logger.queue.size = 0#64 := by
  have hempty : s'.logger.queue = s.logger.queue ∧ frames = [] := by
    obtain ⟨hs, hidle', rfl | ⟨rfl, seq, hfrontend⟩⟩ := hreturns
    · cases step_begins hs with
      | flush hidle =>
        have hrunning : s.running ≠ true := by
          intro hrunning
          rw [LoggerSystem.beginFlush, if_pos hrunning] at hidle'
          cases hidle'
        rw [LoggerSystem.beginFlush, if_neg hrunning]
        have hall := h.handedAll (fun hstatus => hrunning (decide_eq_true hstatus))
          (by simp [hidle])
        have hnil := hall.empty
        rw [h.flow.queue.empty_eq, List.isEmpty_iff] at hnil
        refine ⟨rfl, List.length_eq_zero_iff.mp ?_⟩
        rw [← h.flow.waiting.length_eq, h.flow.frames_eq_nil (by rw [hnil]; decide)]
        rfl
    · cases step_begins hs with
      | frontend hs =>
        refine ⟨by rw [(logger_stepFrontend hs).1], ?_⟩
        rw [LoggerSystem.stepFrontend, hfrontend] at hs
        dsimp only at hs
        split_ifs at hs with hwait
        · rw [← Option.some.inj hs, hfrontend] at hidle'
          cases hidle'
        · have hall := hr.le_done hfrontend hwait
          have haccepted := congrArg List.length h.flow.accepted
          rw [List.length_append, List.length_append] at haccepted
          have hwaiting : waiting = [] := List.eq_nil_of_length_eq_zero (by omega)
          exact List.forall₂_nil_left_iff.mp (hwaiting ▸ h.flow.waiting)
  rw [hempty.1, h.flow.queue.size_eq, hempty.2]
  rfl

/-- **Bursts that fit the queue lose nothing under any schedule**: in every session in which what is
logged between two flushes fits the queue together, every call that passes the filter is accepted,
and handed over by the end. -/
theorem bursts_lose_nothing {mem : Allocator} {threadId : BitVec 32} {options : FemtologOptions}
    {queue : SpscQueue} {sinks : ℕ}
    (hqueue : SpscQueue.reserve mem options.spscQueueSize = some queue)
    (hrun : Reaches step (fun s a => s.OneStart a ∧ s.FewFlushes a ∧ s.Bursts a)
      (initial env threadId options queue sinks) s) : s.LosesNothing := by
  have hinit : Sound (initial env threadId options queue sinks)
      (initial env threadId options queue sinks) [] [] [] [] :=
    sound_initial (SpscQueue.hasBytes_of_reserve hqueue)
  obtain ⟨done, flying, waiting, frames, h, hr, hl⟩ := hrun.invariant
    (I := fun s => ∃ done flying waiting frames,
      Sound (initial env threadId options queue sinks) s done flying waiting frames ∧
        s.Barrier done.length ∧ s.Lossless done.length)
    ⟨[], [], [], [], hinit, barrier_initial threadId options queue sinks, rfl, nofun⟩
    fun ⟨_, _, _, _, h, hr, hl⟩ hguard hs => hl.step hr h hguard.1 hguard.2.1 hguard.2.2 hs
  refine ⟨hl.dropped, fun {call s'} hpass hburst hs => ?_, fun {a s'} hreturns => ?_,
    fun {a s'} hreturns => ?_⟩
  · cases step_begins hs with
    | log hidle hs => exact hl.accepts h.flow hidle hpass hburst hs
  · exact h.size_of_returned hr hreturns
  · have hguard : s.OneStart a ∧ s.FewFlushes a ∧ s.Bursts a := by
      obtain ⟨-, ⟨rfl, -⟩ | ⟨rfl, -⟩⟩ := hreturns <;> exact ⟨trivial, trivial, trivial⟩
    obtain ⟨_, _, _, _, h', -, hl'⟩ :=
      hl.step hr h hguard.1 hguard.2.1 hguard.2.2 hreturns.1
    obtain ⟨hstatus, hfrontend⟩ := hreturns.idles
    exact ⟨h'.handedAll hstatus hfrontend, hl'.dropped⟩

/-- Two messages fill the queue but for twelve bytes; after a flush two more do. -/
theorem bursts_lose_nothing_four : ∃ queue s, SpscQueue.reserve .zeroed 64#64 = some queue
    ∧ execute step (fun s a => decide (s.OneStart a ∧ s.FewFlushes a ∧ s.Bursts a))
        (initial .wide 1#32 { spscQueueSize := 64#64, backendDequeueBufferSize := 64 } queue 1)
        ([.startWorker, .frontend, .log (.literal .kInfo [0x68, 0x69]),
            .log (.literal .kInfo [0x68, 0x6F]), .flush]
          ++ List.replicate 11 (.worker 7#64)
          ++ [.frontend, .log (.literal .kWarn [0x68, 0x69]), .log (.literal .kInfo [0x68])])
      = some s
    ∧ s.accepted.length = 4 ∧ s.LosesNothing := by
  obtain ⟨s, hs, hlen⟩ : ∃ s,
      execute step (fun s a => decide (s.OneStart a ∧ s.FewFlushes a ∧ s.Bursts a))
      (initial .wide 1#32 { spscQueueSize := 64#64, backendDequeueBufferSize := 64 }
        { buffer := some (List.replicate 128 0), capacity := 64#64, mask := 63#64 } 1)
      ([.startWorker, .frontend, .log (.literal .kInfo [0x68, 0x69]),
          .log (.literal .kInfo [0x68, 0x6F]), .flush]
        ++ List.replicate 11 (.worker 7#64)
        ++ [.frontend, .log (.literal .kWarn [0x68, 0x69]), .log (.literal .kInfo [0x68])])
      = some s ∧ s.accepted.length = 4 := Option.map_eq_some_iff.mp (by decide +kernel)
  have hq : SpscQueue.reserve .zeroed 64#64
      = some { buffer := some (List.replicate 128 0), capacity := 64#64, mask := 63#64 } := rfl
  exact ⟨_, s, hq, hs, hlen, bursts_lose_nothing hq (Reaches.of_execute of_decide_eq_true hs)⟩

end LoggerSystem

end Femtolog
