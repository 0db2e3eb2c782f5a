import Femtolog.Logging.Flush
import Femtolog.Logging.Message

/-!
# Logging/Session — one session, from the log calls to the sinks

A session starts its worker once.  Its log calls are in value mode, their entries fit the dequeue
buffer, and their texts the format buffer.  Then no message is lost or changed on its way
(`delivers_session`), if the compiler reads the arguments of five or more in their order: with one
that evaluates from right to left, the sinks get them swapped (`delivers_session_reversed`).
-/

namespace Femtolog

variable {env : Env}

/-! ## One message -/

/-- **The call is delivered** by one `on_log`: its level, thread and format id, and its text. -/
structure LogCall.Delivered (threadId : BitVec 32) (call : LogCall env) (r : OnLog) : Prop where
  level : r.entry.level = call.level
  threadId : r.entry.threadId = threadId
  formatId : r.entry.formatId = call.formatId
  content : call.text = some r.content
  length_content : r.content.length = r.len

/-- What the sink gets with an entry is the text of the call that the entry holds. -/
def OnLog.Faithful (env : Env) (capacity : ℕ) (r : OnLog) : Prop :=
  ∀ {call : LogCall env} {threadId : BitVec 32}, call.IsEntry threadId r.entry →
    call.ByValue capacity → call.ReadInOrder → call.text = some r.content ∧
      r.content.length = r.len

theorem LogCall.Handed.delivered {call : LogCall env} {threadId : BitVec 32} {r : OnLog}
    {capacity : ℕ} (h : call.Handed threadId r) (hr : r.Faithful env capacity)
    (hvalue : call.ByValue capacity) (hread : call.ReadInOrder) : call.Delivered threadId r := by
  obtain ⟨hcontent, hlen⟩ := hr h hvalue hread
  exact ⟨h.level, h.threadId, h.formatId, hcontent, hlen⟩

/-- **A processed frame is faithful** to every call it can stand for. -/
theorem LogEntry.IsFrame.faithful {e : LogEntry} {bytes : List Byte} (hframe : e.IsFrame bytes)
    {now : Size} {formatBuffer rest : List Byte} {result : List Byte × Option OnLog}
    (hprocess : processLogEntry env now formatBuffer (bytes ++ rest) = some result) {r : OnLog}
    (hr : result.2 = some r) (hentry : r.entry = { e with timestampNs := now }) :
    r.Faithful env formatBuffer.length := by
  intro call threadId hcall hvalue hread
  have hcall : call.IsEntry threadId e := by
    have hstamp := hcall.stamp e.timestampNs
    rwa [hentry] at hstamp
  obtain ⟨formatBuffer', r', hprocess', -, hcontent, hlen⟩ :=
    hcall.process hframe hvalue hread now rest
  obtain rfl := Option.some.inj (hprocess.symm.trans hprocess')
  obtain rfl := Option.some.inj hr
  exact ⟨hcontent, hlen⟩

/-! ## Sessions -/

/-- The log calls are in value mode, and their texts fit. -/
def Action.ByValue (capacity : ℕ) : Action env → Prop
  | .log call => call.ByValue capacity
  | _ => True

/-- The arguments of the log calls are read in order. -/
def Action.ReadInOrder : Action env → Prop
  | .log call => call.ReadInOrder
  | _ => True

instance (capacity : ℕ) : (a : Action env) → Decidable (a.ByValue capacity)
  | .log call => inferInstanceAs (Decidable (call.ByValue capacity))
  | .flush | .startWorker | .stopWorker | .setLevel _ | .frontend | .worker _ => .isTrue trivial

instance : (a : Action env) → Decidable a.ReadInOrder
  | .log call => inferInstanceAs (Decidable call.ReadInOrder)
  | .flush | .startWorker | .stopWorker | .setLevel _ | .frontend | .worker _ => .isTrue trivial

namespace LoggerSystem

variable {s₀ s s' : LoggerSystem env} {done flying waiting : List (LogCall env)}
  {frames : List (List Byte)} {capacity : ℕ}

/-! ## The invariant -/

/-- **The messages of a session can be read**: those accepted, and those the sinks have got. -/
structure Readable (capacity : ℕ) (s : LoggerSystem env) : Prop where
  accepted : ∀ call ∈ s.accepted, call.ByValue capacity ∧ call.ReadInOrder
  sinks : ∀ sink ∈ s.backend.sinks, ∀ r ∈ sink, r.Faithful env capacity

namespace Readable

/-- What neither accepts a message nor hands one over. -/
theorem of_eq (hr : s.Readable capacity) (haccepted : s'.accepted = s.accepted)
    (hsinks : s'.backend.sinks = s.backend.sinks) : s'.Readable capacity :=
  ⟨haccepted ▸ hr.accepted, hsinks ▸ hr.sinks⟩

/-- **The message the worker has is processed**, and faithfully. -/
theorem process (hr : s.Readable s₀.backend.formatBuffer.length)
    (h : Sound s₀ s done flying waiting frames) {c : Caller} (hpc : s.worker = .process c)
    (now : Size) :
    ∃ formatBuffer' r, processLogEntry env now s.backend.formatBuffer s.backend.dequeueBuffer
        = some (formatBuffer', some r) ∧ r.Faithful env s₀.backend.formatBuffer.length := by
  have hworker := h.flow.worker
  rw [hpc] at hworker
  obtain ⟨call, bytes, rest, rfl, ⟨e, he, hframe⟩, hbuffer⟩ := hworker
  have hmem : call ∈ s.accepted := by
    rw [h.flow.accepted]
    exact List.mem_append_right _ List.mem_cons_self
  obtain ⟨hvalue, hread⟩ := hr.accepted call hmem
  rw [← h.built.formatBuffer] at hvalue ⊢
  obtain ⟨formatBuffer', r, hprocess, hentry, -, -⟩ := he.process hframe hvalue hread now rest
  rw [hbuffer]
  exact ⟨formatBuffer', r, hprocess, hframe.faithful hprocess rfl hentry⟩

/-- A step of the worker. -/
theorem stepWorker (hr : s.Readable s₀.backend.formatBuffer.length)
    (h : Sound s₀ s done flying waiting frames) (hkeeps : s.WorkerKeeps s') {now : Size}
    (hs : s.stepWorker now = some s') : s'.Readable s₀.backend.formatBuffer.length := by
  refine ⟨hkeeps.accepted ▸ hr.accepted, ?_⟩
  by_cases hpc : ∃ c, s.worker = .process c
  · obtain ⟨c, hpc⟩ := hpc
    obtain ⟨formatBuffer', r, hprocess, hfaithful⟩ := hr.process h hpc now
    rw [LoggerSystem.stepWorker, hpc] at hs
    dsimp only at hs
    rw [hprocess, Option.map_some] at hs
    obtain rfl := Option.some.inj hs
    intro sink hsink r' hr'
    obtain ⟨sink, hmem, rfl⟩ := List.mem_map.mp hsink
    rcases List.mem_append.mp hr' with hold | hnew
    · exact hr.sinks sink hmem r' hold
    · obtain rfl := List.mem_singleton.mp hnew
      exact hfaithful
  · rw [hkeeps.sinks fun c hc => hpc ⟨c, hc⟩]
    exact hr.sinks

/-- A call of `log`. -/
theorem beginLog (hr : s.Readable capacity) {call : LogCall env} (hvalue : call.ByValue capacity)
    (hread : call.ReadInOrder) (hs : s.beginLog call = some s') : s'.Readable capacity := by
  obtain ⟨result, -, rfl⟩ := Option.map_eq_some_iff.mp hs
  refine ⟨?_, hr.sinks⟩
  intro call' hcall'
  dsimp only at hcall'
  split_ifs at hcall'
  · rcases List.mem_append.mp hcall' with hold | hnew
    · exact hr.accepted call' hold
    · obtain rfl := List.mem_singleton.mp hnew
      exact ⟨hvalue, hread⟩
  · exact hr.accepted call' hcall'

end Readable

/-- **Every step of a session keeps both invariants.** -/
theorem Readable.step (hr : s.Readable s₀.backend.formatBuffer.length)
    (h : Sound s₀ s done flying waiting frames) {a : Action env} (hone : s.OneStart a)
    (hvalue : a.ByValue s₀.backend.formatBuffer.length) (hread : a.ReadInOrder)
    (hs : s.step a = some s') :
    ∃ done' flying' waiting' frames', Sound s₀ s' done' flying' waiting' frames' ∧
      s'.Readable s₀.backend.formatBuffer.length := by
  have hfresh := h.freshStart hone
  cases step_begins hs with
  | worker hs =>
    obtain ⟨done', flying', waiting', frames', h', -, hkeeps, -⟩ := h.stepWorker hs
    exact ⟨done', flying', waiting', frames', h', hr.stepWorker h hkeeps hs⟩
  | frontend hs =>
    have hkeeps := stepFrontend_keeps hs
    exact ⟨_, _, _, _, h.stepFrontend hs, hr.of_eq hkeeps.accepted hkeeps.sinks⟩
  | log hidle hs =>
    obtain ⟨waiting', frames', h'⟩ := h.beginLog hidle hs
    exact ⟨_, _, _, _, h', hr.beginLog hvalue hread hs⟩
  | flush hidle =>
    have hkeeps := s.beginFlush_keeps
    exact ⟨_, _, _, _, h.beginFlush hidle, hr.of_eq hkeeps.accepted hkeeps.sinks⟩
  | startWorker hidle hs =>
    have h' := h.beginStart hidle hfresh hs
    rw [beginStart] at hs
    split_ifs at hs
    rw [← Option.some.inj hs] at h' ⊢
    exact ⟨_, _, _, _, h', hr.of_eq rfl rfl⟩
  | stopWorker hidle =>
    have hkeeps := s.beginStop_keeps false
    exact ⟨_, _, _, _, h.beginStop hidle, hr.of_eq hkeeps.accepted hkeeps.sinks⟩
  | setLevel hidle => exact ⟨_, _, _, _, h.setLevel _, hr.of_eq rfl rfl⟩

/-! ## Calls and steps that return -/

/-- The call is counted once: as enqueued, and then accepted, or as dropped. -/
def Counts (s : LoggerSystem env) (call : LogCall env) (s' : LoggerSystem env) : Prop :=
  s'.logger.enqueuedCount = s.logger.enqueuedCount + 1#64 ∧
      s'.logger.droppedCount = s.logger.droppedCount ∧ s'.accepted = s.accepted ++ [call] ∨
    s'.logger.enqueuedCount = s.logger.enqueuedCount ∧
      s'.logger.droppedCount = s.logger.droppedCount + 1#64 ∧ s'.accepted = s.accepted

/-- **A log call that passes the filter returns and is counted once.** -/
theorem Sound.counts (h : Sound s₀ s done flying waiting frames) {call : LogCall env}
    (hidle : s.frontend = .idle) (hpass : s.logger.Passes s.running call)
    (hvalue : call.ByValue capacity) (hread : call.ReadInOrder) :
    ∃ s', s.step (.log call) = some s' ∧ s.Counts call s' := by
  obtain ⟨result, hresult⟩ := s.logger.exists_log s.running hvalue hread
  refine ⟨{ s with
    logger := result.logger
    accepted := if result.accepted.isSome then s.accepted ++ [call] else s.accepted
    frontend := if result.terminate then .stopping else .idle }, ?_, ?_⟩
  · rw [LoggerSystem.step, if_pos hidle, LoggerSystem.beginLog, hresult, Option.map_some]
  · cases InternalLogger.log_spec h.flow.queue hresult with
    | ignored hfail => exact absurd hpass hfail
    | dropped _ _ henqueued hdropped _ _ => exact .inr ⟨henqueued, hdropped, rfl⟩
    | enqueued _ _ henqueued hdropped _ _ _ _ => exact .inl ⟨henqueued, hdropped, rfl⟩

/-- **Framing never slips**: between peek and dequeue the whole entry is in the queue, and the
dequeue succeeds. -/
theorem Sound.framed (h : Sound s₀ s done flying waiting frames)
    (hroom : 1024 ≤ s₀.backend.dequeueBuffer.length) {c : Caller} {payloadLen : BitVec 16}
    (hpc : s.worker = .dequeue c payloadLen) (now : Size) :
    sizeofLogEntry + payloadLen.toNat ≤ s.logger.queue.size.toNat ∧
      ∃ s', s.step (.worker now) = some s' ∧ s'.worker = .process c := by
  obtain ⟨-, call, frame, waiting', frames', queue, -, rfl, ⟨e, he, hframe⟩, hlen, hdequeue, -⟩ :=
    h.flow.dequeueBytes hpc
  constructor
  · rw [h.flow.size_eq, List.flatten_cons, List.length_append, ← hlen]
    exact Nat.le_add_right _ _
  · have hfits : frame.length ≤ s.backend.dequeueBuffer.length := by
      have hshort := he.short
      have hsized := he.sized
      have hroom := h.built.dequeueBuffer ▸ hroom
      rw [hframe.length_eq, LogEntry.totalSize, ← hsized]
      rw [kMaxPayloadSize, sizeofLogEntry] at hshort
      rw [sizeofLogEntry]
      omega
    refine ⟨{ s with
      logger := { s.logger with queue }
      backend := { s.backend with dequeueBuffer := splice s.backend.dequeueBuffer 0 frame }
      worker := .process c }, ?_, rfl⟩
    rw [LoggerSystem.step, LoggerSystem.stepWorker, hpc]
    dsimp only
    rw [hdequeue]
    exact if_pos hfits

/-- **The worker never gets stuck**, and does nothing undefined. -/
theorem Readable.works (hr : s.Readable s₀.backend.formatBuffer.length)
    (h : Sound s₀ s done flying waiting frames) (hroom : 1024 ≤ s₀.backend.dequeueBuffer.length)
    (hstarted : s.worker ≠ .unstarted) (hexited : s.worker ≠ .exited) (now : Size) :
    ∃ s', s.step (.worker now) = some s' := by
  refine exists_stepWorker hstarted hexited now (fun c payloadLen hpc => ?_) fun c hpc => ?_
  · obtain ⟨-, s', hs, -⟩ := h.framed hroom hpc now
    exact ⟨s', hs⟩
  · obtain ⟨formatBuffer', r, hprocess, -⟩ := hr.process h hpc now
    rw [LoggerSystem.stepWorker, hpc]
    dsimp only
    rw [hprocess]
    exact ⟨_, rfl⟩

/-! ## From the calls to the sinks -/

/-- **What a session promises** in a state: a log call that passes the filter returns and is counted
once; the worker finds whole entries and never gets stuck; and when `stop` returns, every sink has
got each message that was counted as enqueued, once, in order, and unchanged. -/
structure KeepsSession (s₀ s : LoggerSystem env) : Prop where
  counted : ∀ {call}, call.ByValue s₀.backend.formatBuffer.length → call.ReadInOrder →
    s.frontend = .idle → s.logger.Passes s.running call →
    ∃ s', s.step (.log call) = some s' ∧ s.Counts call s'
  framed : ∀ {c payloadLen}, s.worker = .dequeue c payloadLen → ∀ now,
    sizeofLogEntry + payloadLen.toNat ≤ s.logger.queue.size.toNat ∧
      ∃ s', s.step (.worker now) = some s' ∧ s'.worker = .process c
  works : s.worker ≠ .unstarted → s.worker ≠ .exited → ∀ now,
    ∃ s', s.step (.worker now) = some s'
  stopped : ∀ {a s'}, s.StopReturns a s' →
    s'.logger.enqueuedCount = BitVec.ofNat 64 s'.accepted.length ∧
      s'.backend.sinks.length = s₀.backend.sinks.length ∧
      ∀ sink ∈ s'.backend.sinks,
        List.Forall₂ (LogCall.Delivered s₀.logger.threadId) s'.accepted sink

/-- All that has been handed over is delivered. -/
theorem Readable.delivered (hr : s.Readable capacity) (h : s.HandedAll) :
    ∀ sink ∈ s.backend.sinks,
      List.Forall₂ (LogCall.Delivered s.logger.threadId) s.accepted sink := by
  intro sink hsink
  have hcalls := (List.forall₂_and_left _ _).mpr ⟨hr.accepted, h.sinks sink hsink⟩
  have hrecords := (List.forall₂_and_left _ _).mpr ⟨hr.sinks sink hsink, hcalls.flip⟩
  refine hrecords.flip.imp ?_
  rintro call r ⟨hfaithful, ⟨hvalue, hread⟩, hhanded⟩
  exact hhanded.delivered hfaithful hvalue hread

/-- The two invariants are the promise. -/
theorem Readable.keepsSession (hr : s.Readable s₀.backend.formatBuffer.length)
    (h : Sound s₀ s done flying waiting frames) (hroom : 1024 ≤ s₀.backend.dequeueBuffer.length) :
    KeepsSession s₀ s where
  counted hvalue hread hidle hpass := h.counts hidle hpass hvalue hread
  framed hpc now := h.framed hroom hpc now
  works hstarted hexited now := hr.works h hroom hstarted hexited now
  stopped := by
    intro a s' hreturns
    obtain ⟨hone, hvalue, hread⟩ : s.OneStart a ∧ a.ByValue s₀.backend.formatBuffer.length ∧
        a.ReadInOrder := by
      obtain ⟨-, ⟨rfl, -⟩ | ⟨rfl, -⟩⟩ := hreturns <;> exact ⟨trivial, trivial, trivial⟩
    obtain ⟨_, _, _, _, h', hr'⟩ := hr.step h hone hvalue hread hreturns.1
    obtain ⟨hstatus, hfrontend⟩ := hreturns.idles
    have hall := h'.handedAll hstatus hfrontend
    exact ⟨hall.counted, h'.built.sinks, h'.built.threadId ▸ hr'.delivered hall⟩

/-- The logger as it is before the first start. -/
theorem readable_initial (threadId : BitVec 32) (options : FemtologOptions) (queue : SpscQueue)
    (sinks capacity : ℕ) : (initial env threadId options queue sinks).Readable capacity where
  accepted := nofun
  sinks := by
    intro sink hsink
    rw [List.eq_of_mem_replicate hsink]
    exact nofun

/-- **A session delivers its messages**: any number of log calls with arguments of any size, any
queue capacity, any interleaving with the worker. -/
theorem delivers_session {mem : Allocator} {threadId : BitVec 32} {options : FemtologOptions}
    {queue : SpscQueue} {sinks : ℕ}
    (hqueue : SpscQueue.reserve mem options.spscQueueSize = some queue)
    (hroom : sizeofLogEntry + kMaxPayloadSize ≤ options.backendDequeueBufferSize)
    (hrun : Reaches step (fun s a => s.OneStart a ∧
        a.ByValue (env.reserve options.backendFormatBufferSize) ∧ a.ReadInOrder)
      (initial env threadId options queue sinks) s) :
    KeepsSession (initial env threadId options queue sinks) s := by
  have hformat : (initial env threadId options queue sinks).backend.formatBuffer.length
      = env.reserve options.backendFormatBufferSize := env.length_formatBuffer _
  have hdequeue : 1024 ≤ (initial env threadId options queue sinks).backend.dequeueBuffer.length :=
    hroom.trans_eq List.length_replicate.symm
  rw [← hformat] at hrun
  obtain ⟨done, flying, waiting, frames, h, hr⟩ := hrun.invariant
    (I := fun s => ∃ done flying waiting frames,
      Sound (initial env threadId options queue sinks) s done flying waiting frames ∧
        s.Readable (initial env threadId options queue sinks).backend.formatBuffer.length)
    ⟨[], [], [], [], sound_initial (SpscQueue.hasBytes_of_reserve hqueue),
      readable_initial threadId options queue sinks _⟩
    fun ⟨_, _, _, _, h, hr⟩ hguard hs => hr.step h hguard.1 hguard.2.1 hguard.2.2 hs
  exact hr.keepsSession h hdequeue

end LoggerSystem

/-! ## Five arguments -/

/-- The text of `"{} {} {} {} {}"` for small numbers: their digits, with blanks between them. -/
def digits (args : List Value) : List Byte :=
  [0x20].intercalate (args.map fun
    | .copy (b :: _) => [0x30 + b]
    | _ => [])

/-- The environment of `info<"{} {} {} {} {}">(1, 2, 3, 4, 5)`, compiled with this order of
evaluation. -/
def Env.five (order : EvalOrder) : Env :=
  .single (fun _ => digits) order
    [0x7b, 0x7d, 0x20, 0x7b, 0x7d, 0x20, 0x7b, 0x7d, 0x20, 0x7b, 0x7d, 0x20, 0x7b, 0x7d] false
    (List.replicate 5 (.object false true 4))

/-- The number `i` lies at the address `16 * i`. -/
def Memory.numbers : Memory where
  byte addr :=
    if addr.toNat < 9 then nullptrText.getD addr.toNat 0
    else if addr.toNat % 16 = 0 then UInt8.ofNat (addr.toNat / 16) else 0
  nullText := 0#64
  nullText_bytes := by decide

/-- That call. -/
def LogCall.five (order : EvalOrder) : LogCall (.five order) where
  level := .kInfo
  fmt := [0x7b, 0x7d, 0x20, 0x7b, 0x7d, 0x20, 0x7b, 0x7d, 0x20, 0x7b, 0x7d, 0x20, 0x7b, 0x7d]
  refMode := false
  args := [16#64, 32#64, 48#64, 64#64, 80#64].map fun addr => ⟨.object false true 4, addr, none⟩
  mem := .numbers
  header := ⟨1#64, 2#64⟩
  formatAt _ := rfl
  deserializeAt _ := rfl
  compiles _ := ⟨by decide, by decide, by decide, by decide⟩
  strings := by decide

namespace LoggerSystem

/-- The call and a literal, from a compiler that evaluates from left to right. -/
theorem delivers_session_five : ∃ queue s, SpscQueue.reserve .zeroed 128#64 = some queue
    ∧ execute step (fun s a => decide (s.OneStart a ∧
          a.ByValue ((Env.five .leftToRight).reserve 2048) ∧ a.ReadInOrder))
        (initial (.five .leftToRight) 1#32 { spscQueueSize := 128#64 } queue 2)
        ([.startWorker, .frontend, .log (.five .leftToRight), .log (.literal .kWarn [0x68])]
          ++ List.replicate 12 (.worker 7#64) ++ .stopWorker :: List.replicate 4 (.worker 8#64))
      = some s
    ∧ s.frontend = .joining false ∧ s.worker = .exited
    ∧ KeepsSession (initial (.five .leftToRight) 1#32 { spscQueueSize := 128#64 } queue 2) s := by
  obtain ⟨s, hs, hpcs⟩ : ∃ s, execute step (fun s a => decide (s.OneStart a ∧
        a.ByValue ((Env.five .leftToRight).reserve 2048) ∧ a.ReadInOrder))
      (initial (.five .leftToRight) 1#32 { spscQueueSize := 128#64 }
        { buffer := some (List.replicate 192 0), capacity := 128#64, mask := 127#64 } 2)
      ([.startWorker, .frontend, .log (.five .leftToRight), .log (.literal .kWarn [0x68])]
        ++ List.replicate 12 (.worker 7#64) ++ .stopWorker :: List.replicate 4 (.worker 8#64))
      = some s ∧ (s.frontend, s.worker) = (.joining false, .exited) :=
    Option.map_eq_some_iff.mp (by decide +kernel)
  have hq : SpscQueue.reserve .zeroed 128#64
      = some { buffer := some (List.replicate 192 0), capacity := 128#64, mask := 127#64 } := rfl
  obtain ⟨hfrontend, hworker⟩ := Prod.mk.inj hpcs
  exact ⟨_, s, hq, hs, hfrontend, hworker,
    delivers_session hq (by decide) (Reaches.of_execute of_decide_eq_true hs)⟩

set_option synthInstance.maxSize 1000 in
/-- **Five arguments arrive in reverse** from a compiler that evaluates from right to left: the
sinks get `"5 4 3 2 1"`. -/
theorem delivers_session_reversed :
    ¬∀ (env : Env) (mem : Allocator) (threadId : BitVec 32) (options : FemtologOptions)
      (queue : SpscQueue) (sinks : ℕ) (s : LoggerSystem env),
      SpscQueue.reserve mem options.spscQueueSize = some queue →
      sizeofLogEntry + kMaxPayloadSize ≤ options.backendDequeueBufferSize →
      Reaches step (fun s a => s.OneStart a ∧
          a.ByValue (env.reserve options.backendFormatBufferSize))
        (initial env threadId options queue sinks) s →
      KeepsSession (initial env threadId options queue sinks) s := by
  intro h
  obtain ⟨s, hs, hend⟩ : ∃ s, execute step (fun s a => decide (s.OneStart a ∧
        a.ByValue ((Env.five .rightToLeft).reserve 2048)))
      (initial (.five .rightToLeft) 1#32 { spscQueueSize := 128#64 }
        { buffer := some (List.replicate 192 0), capacity := 128#64, mask := 127#64 } 1)
      ([.startWorker, .frontend, .log (.five .rightToLeft)]
        ++ List.replicate 6 (.worker 7#64) ++ .stopWorker :: List.replicate 4 (.worker 8#64))
      = some s ∧ (s.frontend, s.worker, s.accepted.map LogCall.text,
        s.backend.sinks.map fun sink => sink.map OnLog.content)
      = (.joining false, .exited, [some [0x31, 0x20, 0x32, 0x20, 0x33, 0x20, 0x34, 0x20, 0x35]],
        [[[0x35, 0x20, 0x34, 0x20, 0x33, 0x20, 0x32, 0x20, 0x31]]]) :=
    Option.map_eq_some_iff.mp (by decide +kernel)
  simp only [Prod.mk.injEq] at hend
  obtain ⟨hfrontend, hworker, htexts, hcontents⟩ := hend
  have hreturns : s.StopReturns .frontend { s with
      backend := { s.backend with status := .kIdling }, frontend := .idle } := by
    refine ⟨?_, .inr ⟨rfl, false, hfrontend⟩⟩
    rw [step, stepFrontend, hfrontend]
    exact if_pos hworker
  have hkeeps := h _ .zeroed 1#32 { spscQueueSize := 128#64 } _ 1 s rfl (by decide)
    (Reaches.of_execute of_decide_eq_true hs)
  obtain ⟨-, -, hdelivered⟩ := hkeeps.stopped hreturns
  obtain ⟨sink, hsinks, hcontent⟩ := List.map_eq_singleton_iff.mp hcontents
  have htext : s.accepted.map LogCall.text = sink.map fun r => some r.content := by
    have hsink := hdelivered sink (hsinks ▸ List.mem_singleton.mpr rfl)
    rw [← List.forall₂_eq_eq_eq, List.forall₂_map_left_iff, List.forall₂_map_right_iff]
    exact hsink.imp fun _ _ hcall => hcall.content
  have hsome : (sink.map fun r => some r.content) = (sink.map OnLog.content).map some :=
    List.map_map.symm
  rw [htexts, hsome, hcontent] at htext
  exact absurd htext (by decide)

end LoggerSystem

end Femtolog
