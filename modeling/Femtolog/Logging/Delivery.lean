import Femtolog.Logging.System

/-!
# Logging/Delivery — where the accepted messages are

The messages that went into the queue are, in the order of the calls: those that every sink has got,
the one in the dequeue buffer, and those still in the queue (`Flow`).  The queue is a sequence of
whole frames, so the worker's peek tells the length of the frame in front, and the dequeue that
follows finds all of it.  Steps of either thread keep this (`Flow.stepWorker`, `Flow.log`); what a
step of the worker does to the rest of the system is one of the moves `Goes`.
-/

namespace Femtolog

variable {env : Env}

/-! ## One message -/

/-- The sink was handed the entry of the call. -/
def LogCall.Handed (threadId : BitVec 32) (call : LogCall env) (r : OnLog) : Prop :=
  call.IsEntry threadId r.entry

/-- `bytes` hold the entry of the call. -/
def LogCall.Framed (threadId : BitVec 32) (call : LogCall env) (bytes : List Byte) : Prop :=
  ∃ e, call.IsEntry threadId e ∧ e.IsFrame bytes

/-- The time an entry is stamped with is not the caller's. -/
theorem LogCall.IsEntry.stamp {threadId : BitVec 32} {call : LogCall env} {e : LogEntry}
    (h : call.IsEntry threadId e) (now : Size) :
    call.IsEntry threadId { e with timestampNs := now } :=
  ⟨h.payload, h.short, h.sized, h.formatId, h.threadId, h.level⟩

/-- Only literals have the format id of literals. -/
theorem LogCall.formatId_eq_iff (call : LogCall env) :
    call.formatId = kLiteralLogStringId ↔ call.args = [] := by
  rw [LogCall.formatId]
  split_ifs with hargs
  · exact ⟨fun _ => hargs, fun _ => rfl⟩
  · exact ⟨fun h => absurd h (getStringId_ne _), fun h => absurd h hargs⟩

/-- **A processed message is handed over**, whatever becomes of its text. -/
theorem LogCall.Framed.handed {threadId : BitVec 32} {call : LogCall env} {bytes : List Byte}
    (h : call.Framed threadId bytes) {now : Size} {formatBuffer rest : List Byte}
    {result : List Byte × Option OnLog}
    (hprocess : processLogEntry env now formatBuffer (bytes ++ rest) = some result) :
    ∃ r, result.2 = some r ∧ call.Handed threadId r := by
  obtain ⟨e, he, hframe⟩ := h
  rw [processLogEntry, hframe.parse_append, hframe.drop_append] at hprocess
  dsimp only at hprocess
  split_ifs at hprocess with hformat hlen
  · rw [← Option.some.inj hprocess]
    exact ⟨_, rfl, he.stamp now⟩
  · have hargs : call.args ≠ [] := fun hargs =>
      hformat (he.formatId.trans (call.formatId_eq_iff.mpr hargs))
    have hpayload := he.payload
    rw [LogCall.payload, if_neg hargs] at hpayload
    obtain ⟨rs, -, hbytes⟩ := Option.map_eq_some_iff.mp hpayload
    have hheader : headerAt (e.payload ++ rest) = some call.header := by
      rw [← hbytes, List.append_assoc, headerAt_bytes]
    have hnull :
        ¬(call.header.deserializeAndFormatFunc = 0#64 ∨ call.header.formatFunc = 0#64) := by
      rintro (h0 | h0)
      · have := call.deserializeAt hargs
        rw [h0, env.deserializeAt_null] at this
        cases this
      · have := call.formatAt hargs
        rw [h0, env.formatAt_null] at this
        cases this
    rw [hheader, Option.bind_some, if_neg hnull] at hprocess
    obtain ⟨fmt, -, hprocess⟩ := Option.bind_eq_some_iff.mp hprocess
    obtain ⟨dispatcher, -, hprocess⟩ := Option.bind_eq_some_iff.mp hprocess
    obtain ⟨formatted, -, rfl⟩ := Option.map_eq_some_iff.mp hprocess
    exact ⟨_, rfl, he.stamp now⟩

/-- **The peek of the length field** finds how long the frame in front is. -/
theorem LogCall.Framed.peekBytes {threadId : BitVec 32} {call : LogCall env}
    {frame rest : List Byte} (h : call.Framed threadId frame) {queue : SpscQueue}
    (hqueue : queue.HasBytes (frame ++ rest)) :
    (queue.peekBytes 2#64).1 = .kOk ∧ frame.length
      = sizeofLogEntry + (BitVec.ofNat 16 (ofBytesLE (queue.peekBytes 2#64).2)).toNat := by
  obtain ⟨e, he, hframe⟩ := h
  obtain ⟨hfound, hnone⟩ := hqueue.peekBytes (show (2#64 : Size) ≠ 0#64 by decide)
  have hok : (queue.peekBytes 2#64).1 = .kOk := by
    by_contra hne
    have hshort : (frame ++ rest).length < 2 := hnone hne
    rw [List.length_append, hframe.length_eq, LogEntry.totalSize, sizeofLogEntry] at hshort
    omega
  have hbytes : (queue.peekBytes 2#64).2 = bytesLE 2 e.payloadLen.toNat :=
    (hfound hok).1.trans (hframe.take_two rest)
  refine ⟨hok, ?_⟩
  rw [hbytes, ofNat_ofBytesLE e.payloadLen (by norm_num), hframe.length_eq, LogEntry.totalSize]

/-- **The dequeue of that length** takes the frame. -/
theorem SpscQueue.HasBytes.dequeueEntry {queue : SpscQueue} {frame rest : List Byte}
    (hqueue : queue.HasBytes (frame ++ rest)) {payloadLen : BitVec 16}
    (hlength : frame.length = sizeofLogEntry + payloadLen.toNat) :
    ∃ queue', queue.dequeueBytes (BitVec.ofNat 64 (sizeofLogEntry + payloadLen.toNat))
      = (.kOk, frame, queue') ∧ queue'.HasBytes rest := by
  have htotal : (BitVec.ofNat 64 (sizeofLogEntry + payloadLen.toNat)).toNat = frame.length := by
    rw [hlength, toNat_ofNat_of_lt]
    have := payloadLen.isLt
    rw [sizeofLogEntry]
    omega
  have hne : BitVec.ofNat 64 (sizeofLogEntry + payloadLen.toNat) ≠ 0#64 := by
    intro h0
    rw [h0, hlength, sizeofLogEntry, BitVec.toNat_zero] at htotal
    omega
  obtain ⟨hok, hbytes, hrest⟩ := hqueue.dequeueBytes hne
    (by rw [htotal, List.length_append]; omega)
  rw [htotal, List.take_left] at hbytes
  rw [htotal, List.drop_left] at hrest
  exact ⟨_, Prod.ext hok (Prod.ext hbytes rfl), hrest⟩

/-- What the worker has between the queue and the sinks: between peek and dequeue it knows the
length of the frame in front, and after the dequeue it has the frame in its buffer. -/
def WorkerHas (threadId : BitVec 32) (buffer : List Byte) :
    WorkerPc → List (LogCall env) → List (List Byte) → Prop
  | .dequeue _ payloadLen, flying, frames =>
    flying = [] ∧ ∃ bytes rest, frames = bytes :: rest ∧
      bytes.length = sizeofLogEntry + payloadLen.toNat
  | .process _, flying, _ =>
    ∃ call bytes rest, flying = [call] ∧ call.Framed threadId bytes ∧ buffer = bytes ++ rest
  | _, flying, _ => flying = []

/-- A frame behind the others does not concern the worker. -/
theorem WorkerHas.append {threadId : BitVec 32} {buffer : List Byte} {pc : WorkerPc}
    {flying : List (LogCall env)} {frames : List (List Byte)}
    (h : WorkerHas threadId buffer pc flying frames) (bytes : List Byte) :
    WorkerHas threadId buffer pc flying (frames ++ [bytes]) := by
  cases pc with
  | dequeue c payloadLen =>
    obtain ⟨hflying, frame, rest, rfl, hlen⟩ := h
    exact ⟨hflying, frame, rest ++ [bytes], rfl, hlen⟩
  | _ => exact h

/-- The worker has nothing between the queue and the sinks. -/
def WorkerPc.Plain : WorkerPc → Prop
  | .dequeue _ _ | .process _ => False
  | _ => True

theorem workerHas_iff {threadId : BitVec 32} {buffer : List Byte} {pc : WorkerPc} (h : pc.Plain)
    {flying : List (LogCall env)} {frames : List (List Byte)} :
    WorkerHas threadId buffer pc flying frames ↔ flying = [] := by
  cases pc <;> first | exact absurd h id | exact Iff.rfl

theorem WorkerPc.Plain.ne_process {pc : WorkerPc} (h : pc.Plain) (c : Caller) :
    pc ≠ .process c := by
  rintro rfl
  exact h

theorem WorkerPc.Plain.ne_dequeue {pc : WorkerPc} (h : pc.Plain) (c : Caller)
    (payloadLen : BitVec 16) : pc ≠ .dequeue c payloadLen := by
  rintro rfl
  exact h

theorem Caller.plain_failed (c : Caller) : c.failed.Plain := by cases c <;> trivial

theorem Caller.plain_succeeded (c : Caller) : c.succeeded.Plain := by cases c <;> trivial

namespace LoggerSystem

/-! ## All messages -/

/-- **Where the accepted messages are**: `done` have been handed to every sink, `flying` is with the
worker, `waiting` is in the queue, as `frames`. -/
structure Flow (s : LoggerSystem env) (done flying waiting : List (LogCall env))
    (frames : List (List Byte)) : Prop where
  accepted : s.accepted = done ++ (flying ++ waiting)
  counted : s.logger.enqueuedCount = BitVec.ofNat 64 s.accepted.length
  sinks : ∀ sink ∈ s.backend.sinks, List.Forall₂ (LogCall.Handed s.logger.threadId) done sink
  waiting : List.Forall₂ (LogCall.Framed s.logger.threadId) waiting frames
  queue : s.logger.queue.HasBytes frames.flatten
  worker : WorkerHas s.logger.threadId s.backend.dequeueBuffer s.worker flying frames

/-- **What the construction of a logger fixes**: options, sinks, and the sizes of the buffers. -/
structure Built (s₀ s : LoggerSystem env) : Prop where
  threadId : s.logger.threadId = s₀.logger.threadId
  terminateOnFatal : s.logger.terminateOnFatal = s₀.logger.terminateOnFatal
  sinks : s.backend.sinks.length = s₀.backend.sinks.length
  dequeueBuffer : s.backend.dequeueBuffer.length = s₀.backend.dequeueBuffer.length
  formatBuffer : s.backend.formatBuffer.length = s₀.backend.formatBuffer.length

theorem Built.refl (s : LoggerSystem env) : s.Built s := ⟨rfl, rfl, rfl, rfl, rfl⟩

theorem Built.trans {s₀ s s' : LoggerSystem env} (h : s₀.Built s) (h' : s.Built s') : s₀.Built s' :=
  ⟨h'.threadId.trans h.threadId, h'.terminateOnFatal.trans h.terminateOnFatal,
    h'.sinks.trans h.sinks, h'.dequeueBuffer.trans h.dequeueBuffer,
    h'.formatBuffer.trans h.formatBuffer⟩

variable {s s' : LoggerSystem env} {done flying waiting : List (LogCall env)}
  {frames : List (List Byte)}

/-- What concerns neither messages nor the worker. -/
theorem Flow.of_eq (h : s.Flow done flying waiting frames) (haccepted : s'.accepted = s.accepted)
    (hcount : s'.logger.enqueuedCount = s.logger.enqueuedCount)
    (hthread : s'.logger.threadId = s.logger.threadId)
    (hqueue : s'.logger.queue.HasBytes frames.flatten) (hsinks : s'.backend.sinks = s.backend.sinks)
    (hbuffer : s'.backend.dequeueBuffer = s.backend.dequeueBuffer)
    (hworker : s'.worker = s.worker) : s'.Flow done flying waiting frames where
  accepted := haccepted ▸ h.accepted
  counted := by rw [hcount, haccepted, h.counted]
  sinks := by rw [hsinks, hthread]; exact h.sinks
  waiting := hthread ▸ h.waiting
  queue := hqueue
  worker := by rw [hthread, hbuffer, hworker]; exact h.worker

end LoggerSystem

/-! ## The moves of the worker -/

/-- **The moves of the worker** from one place to the next, with the completed sequence number they
leave; `settled` holds where a peek finds the queue empty. -/
inductive Goes (b : BackendWorker) (settled : Prop) : WorkerPc → WorkerPc → Size → Prop
  | shutdown (h : b.shutdownRequired = true) :
    Goes b settled .loadShutdown (.peek .drain) b.flushCompletedSeq
  | goOn (h : b.shutdownRequired = false) :
    Goes b settled .loadShutdown .loadRequested b.flushCompletedSeq
  | requested :
    Goes b settled .loadRequested (.loadCompleted b.flushRequestedSeq) b.flushCompletedSeq
  | due {req : Size} (h : b.flushCompletedSeq < req) :
    Goes b settled (.loadCompleted req) (.peek (.flush req)) b.flushCompletedSeq
  | notDue {req : Size} (h : ¬b.flushCompletedSeq < req) :
    Goes b settled (.loadCompleted req) (.peek .main) b.flushCompletedSeq
  | found {c : Caller} {payloadLen : BitVec 16} :
    Goes b settled (.peek c) (.dequeue c payloadLen) b.flushCompletedSeq
  | empty {c : Caller} (h : settled) : Goes b settled (.peek c) c.failed b.flushCompletedSeq
  | taken {c : Caller} {payloadLen : BitVec 16} :
    Goes b settled (.dequeue c payloadLen) (.process c) b.flushCompletedSeq
  | handed {c : Caller} : Goes b settled (.process c) c.succeeded b.flushCompletedSeq
  | completed {req : Size} : Goes b settled (.storeCompleted req) (.peek .main) req
  | drained : Goes b settled .drained (.storeFinal b.flushRequestedSeq) b.flushCompletedSeq
  | final {req : Size} : Goes b settled (.storeFinal req) .exited req

namespace LoggerSystem

/-- What a step of the worker leaves alone. -/
structure WorkerKeeps (s s' : LoggerSystem env) : Prop where
  frontend : s'.frontend = s.frontend
  accepted : s'.accepted = s.accepted
  marks : s'.marks = s.marks
  status : s'.backend.status = s.backend.status
  shutdown : s'.backend.shutdownRequired = s.backend.shutdownRequired
  requested : s'.backend.flushRequestedSeq = s.backend.flushRequestedSeq
  sinks : (∀ c, s.worker ≠ .process c) → s'.backend.sinks = s.backend.sinks
  built : s.Built s'

theorem WorkerKeeps.of_worker (s : LoggerSystem env) (pc : WorkerPc) (completed : Size) :
    s.WorkerKeeps { s with
      backend := { s.backend with flushCompletedSeq := completed }, worker := pc } :=
  ⟨rfl, rfl, rfl, rfl, rfl, rfl, fun _ => rfl, ⟨rfl, rfl, rfl, rfl, rfl⟩⟩

/-- **What a step of the worker does to the frames in the queue** and to the dequeue buffer:
nothing, or it takes the frame in front. -/
inductive Takes (s s' : LoggerSystem env) : List (List Byte) → List (List Byte) → Prop
  | nothing {frames : List (List Byte)} (hpc : ∀ c payloadLen, s.worker ≠ .dequeue c payloadLen)
      (hworker : ∀ c, s'.worker ≠ .process c)
      (hbuffer : s'.backend.dequeueBuffer = s.backend.dequeueBuffer) : Takes s s' frames frames
  | front {frame : List Byte} {frames : List (List Byte)} {c : Caller} {payloadLen : BitVec 16}
      (hpc : s.worker = .dequeue c payloadLen) (hworker : s'.worker = .process c)
      (hfits : frame.length ≤ s.backend.dequeueBuffer.length)
      (hbuffer : s'.backend.dequeueBuffer = splice s.backend.dequeueBuffer 0 frame) :
      Takes s s' (frame :: frames) frames

variable {s s' : LoggerSystem env} {done flying waiting : List (LogCall env)}
  {frames : List (List Byte)}

/-- A move that touches no message. -/
theorem Flow.move (h : s.Flow done flying waiting frames) (hpc : s.worker.Plain) {pc : WorkerPc}
    (hpc' : pc.Plain) (completed : Size) :
    Flow { s with backend := { s.backend with flushCompletedSeq := completed }, worker := pc }
      done flying waiting frames :=
  { h with worker := (workerHas_iff hpc').mpr ((workerHas_iff hpc).mp h.worker) }

/-- Only a dequeue concerns the frontend's half. -/
theorem logger_stepWorker {now : Size} (hs : s.stepWorker now = some s')
    (hpc : ∀ c payloadLen, s.worker ≠ .dequeue c payloadLen) : s'.logger = s.logger := by
  rw [LoggerSystem.stepWorker] at hs
  cases hw : s.worker with
  | dequeue c payloadLen => exact absurd hw (hpc c payloadLen)
  | unstarted | exited =>
    rw [hw] at hs
    cases hs
  | peek c =>
    rw [hw] at hs
    dsimp only at hs
    split at hs <;> rw [← Option.some.inj hs]
  | process c =>
    rw [hw] at hs
    obtain ⟨_, _, rfl⟩ := Option.map_eq_some_iff.mp hs
    rfl
  | loadShutdown | loadRequested | loadCompleted req | storeCompleted req | drained
  | storeFinal req =>
    rw [hw] at hs
    rw [← Option.some.inj hs]

/-- Only where the worker dequeues or processes can its step be undefined. -/
theorem exists_stepWorker (hstarted : s.worker ≠ .unstarted) (hexited : s.worker ≠ .exited)
    (now : Size)
    (hdequeue : ∀ c payloadLen, s.worker = .dequeue c payloadLen →
      ∃ s', s.stepWorker now = some s')
    (hprocess : ∀ c, s.worker = .process c → ∃ s', s.stepWorker now = some s') :
    ∃ s', s.stepWorker now = some s' := by
  cases hpc : s.worker with
  | unstarted => exact absurd hpc hstarted
  | exited => exact absurd hpc hexited
  | dequeue c payloadLen => exact hdequeue c payloadLen hpc
  | process c => exact hprocess c hpc
  | peek c =>
    rw [LoggerSystem.stepWorker, hpc]
    dsimp only
    split <;> exact ⟨_, rfl⟩
  | _ =>
    rw [LoggerSystem.stepWorker, hpc]
    exact ⟨_, rfl⟩

/-- The queue has the bytes of the frames. -/
theorem Flow.size_eq (h : s.Flow done flying waiting frames) :
    s.logger.queue.size.toNat = frames.flatten.length := by
  rw [h.queue.size_eq, toNat_ofNat_of_lt h.queue.length_lt]

/-- A frame is longer than the length field. -/
theorem Flow.frames_eq_nil (h : s.Flow done flying waiting frames)
    (hshort : frames.flatten.length < 2) : waiting = [] := by
  cases h.waiting with
  | nil => rfl
  | @cons call frame waiting frames hframed _ =>
    obtain ⟨e, _, hframe⟩ := hframed
    rw [List.flatten_cons, List.length_append, hframe.length_eq, LogEntry.totalSize,
      sizeofLogEntry] at hshort
    omega

/-- The peek finds the length of the frame in front, or no frame. -/
theorem Flow.peek (h : s.Flow done flying waiting frames) {c : Caller} (hpc : s.worker = .peek c)
    {now : Size} (hs : s.stepWorker now = some s') :
    s'.Flow done flying waiting frames ∧ s.WorkerKeeps s' ∧
      Goes s.backend (done = s.accepted) s.worker s'.worker s'.backend.flushCompletedSeq ∧
      s.Takes s' frames frames := by
  have hflying : flying = [] := by
    have := h.worker
    rwa [hpc] at this
  have hframes := h.waiting
  rw [LoggerSystem.stepWorker, hpc] at hs
  dsimp only at hs
  split at hs
  · rename_i bytes hpeek
    obtain rfl := Option.some.inj hs
    cases hframes with
    | nil =>
      have hlong := ((h.queue.peekBytes (show (2#64 : Size) ≠ 0#64 by decide)).1
        (congrArg Prod.fst hpeek)).2
      simp at hlong
    | @cons call frame waiting frames hframed hrest =>
      have hlength := (hframed.peekBytes h.queue).2
      rw [hpeek] at hlength
      exact ⟨{ h with worker := ⟨hflying, frame, frames, rfl, hlength⟩ }, .of_worker s _ _,
        hpc ▸ .found, .nothing (by simp [hpc]) (by simp) rfl⟩
  · rename_i hpeek
    have hwaiting : waiting = [] := by
      cases hframes with
      | nil => rfl
      | cons hframed _ =>
        have hok : s.logger.queue.peekBytes 2#64 = (.kOk, _) :=
          Prod.ext (hframed.peekBytes h.queue).1 rfl
        exact absurd hok (hpeek _)
    have hdone : done = s.accepted := by
      rw [h.accepted, hflying, hwaiting, List.append_nil, List.append_nil]
    obtain rfl := Option.some.inj hs
    exact ⟨h.move (hpc ▸ trivial) c.plain_failed _, .of_worker s _ _, hpc ▸ .empty hdone,
      .nothing (by simp [hpc]) c.plain_failed.ne_process rfl⟩

/-- The queue call of a dequeue takes the frame in front. -/
theorem Flow.dequeueBytes (h : s.Flow done flying waiting frames) {c : Caller}
    {payloadLen : BitVec 16} (hpc : s.worker = .dequeue c payloadLen) :
    flying = [] ∧ ∃ call frame waiting' frames' queue,
      waiting = call :: waiting' ∧ frames = frame :: frames' ∧
      call.Framed s.logger.threadId frame ∧ frame.length = sizeofLogEntry + payloadLen.toNat ∧
      s.logger.queue.dequeueBytes (BitVec.ofNat 64 (sizeofLogEntry + payloadLen.toNat))
        = (.kOk, frame, queue) ∧ queue.HasBytes frames'.flatten := by
  have hworker := h.worker
  rw [hpc] at hworker
  obtain ⟨hflying, frame, frames, rfl, hlen⟩ := hworker
  obtain ⟨call, waiting, hframed, -, rfl⟩ := List.forall₂_cons_right_iff.mp h.waiting
  obtain ⟨queue, hdequeue, hrest⟩ := h.queue.dequeueEntry hlen
  exact ⟨hflying, call, frame, waiting, frames, queue, rfl, rfl, hframed, hlen, hdequeue, hrest⟩

/-- The dequeue takes the frame in front. -/
theorem Flow.dequeue (h : s.Flow done flying waiting frames) {c : Caller} {payloadLen : BitVec 16}
    (hpc : s.worker = .dequeue c payloadLen) {now : Size} (hs : s.stepWorker now = some s') :
    ∃ flying' waiting' frames', s'.Flow done flying' waiting' frames' ∧ s.WorkerKeeps s' ∧
      Goes s.backend (done = s.accepted) s.worker s'.worker s'.backend.flushCompletedSeq ∧
      s.Takes s' frames frames' := by
  obtain ⟨rfl, call, frame, waiting', frames', queue, rfl, rfl, hframed, -, hdequeue, hrest⟩ :=
    h.dequeueBytes hpc
  rw [LoggerSystem.stepWorker, hpc] at hs
  dsimp only at hs
  rw [hdequeue] at hs
  dsimp only at hs
  split_ifs at hs with hroom
  obtain rfl := Option.some.inj hs
  refine ⟨[call], waiting', frames', ?_, ?_, hpc ▸ .taken, .front hpc rfl hroom rfl⟩
  · exact
      { accepted := h.accepted
        counted := h.counted
        sinks := h.sinks
        waiting := (List.forall₂_cons.mp h.waiting).2
        queue := hrest
        worker := ⟨call, frame, _, rfl, hframed, splice_zero _ _⟩ }
  · exact ⟨rfl, rfl, rfl, rfl, rfl, rfl, fun _ => rfl,
      ⟨rfl, rfl, rfl, length_splice (by omega), rfl⟩⟩

/-- The sinks get the message the worker has. -/
theorem Flow.process (h : s.Flow done flying waiting frames) {c : Caller}
    (hpc : s.worker = .process c) {now : Size} (hs : s.stepWorker now = some s') :
    s'.Flow (done ++ flying) [] waiting frames ∧ s.WorkerKeeps s' ∧
      Goes s.backend (done = s.accepted) s.worker s'.worker s'.backend.flushCompletedSeq ∧
      s.Takes s' frames frames := by
  have hworker := h.worker
  rw [hpc] at hworker
  obtain ⟨call, bytes, rest, rfl, hframed, hbuffer⟩ := hworker
  rw [LoggerSystem.stepWorker, hpc] at hs
  obtain ⟨result, hresult, rfl⟩ := Option.map_eq_some_iff.mp hs
  rw [hbuffer] at hresult
  obtain ⟨r, hr, hhanded⟩ := hframed.handed hresult
  refine ⟨?_, ?_, hpc ▸ .handed, .nothing (by simp [hpc]) c.plain_succeeded.ne_process rfl⟩
  · exact
      { accepted := by rw [h.accepted, List.nil_append, List.append_assoc]
        counted := h.counted
        sinks := by
          intro sink hsink
          obtain ⟨sink, hmem, rfl⟩ := List.mem_map.mp hsink
          rw [hr]
          exact List.rel_append (h.sinks sink hmem) (.cons hhanded .nil)
        waiting := h.waiting
        queue := h.queue
        worker := (workerHas_iff c.plain_succeeded).mpr rfl }
  · exact ⟨rfl, rfl, rfl, rfl, rfl, rfl, fun hother => absurd hpc (hother c),
      ⟨rfl, rfl, List.length_map _, rfl, length_processLogEntry hresult⟩⟩

/-- **A step of the worker keeps the messages in order** and takes them on towards the sinks. -/
theorem Flow.stepWorker (h : s.Flow done flying waiting frames) {now : Size}
    (hs : s.stepWorker now = some s') :
    ∃ done' flying' waiting' frames', s'.Flow done' flying' waiting' frames' ∧ done <+: done' ∧
      s.WorkerKeeps s' ∧
      Goes s.backend (done = s.accepted) s.worker s'.worker s'.backend.flushCompletedSeq ∧
      s.Takes s' frames frames' := by
  have hmove : ∀ {pc : WorkerPc} {completed : Size},
      Goes s.backend (done = s.accepted) s.worker pc completed → s.worker.Plain → pc.Plain →
      s' = { s with backend := { s.backend with flushCompletedSeq := completed }, worker := pc } →
      ∃ done' flying' waiting' frames', s'.Flow done' flying' waiting' frames' ∧ done <+: done' ∧
        s.WorkerKeeps s' ∧
        Goes s.backend (done = s.accepted) s.worker s'.worker s'.backend.flushCompletedSeq ∧
        s.Takes s' frames frames' := by
    rintro pc completed hgoes hpc hpc' rfl
    exact ⟨_, _, _, _, h.move hpc hpc' completed, List.prefix_refl _, .of_worker s _ _, hgoes,
      .nothing hpc.ne_dequeue hpc'.ne_process rfl⟩
  cases hpc : s.worker with
  | unstarted | exited =>
    rw [LoggerSystem.stepWorker, hpc] at hs
    cases hs
  | peek c =>
    obtain ⟨hflow, hkeeps, hgoes, htakes⟩ := h.peek hpc hs
    exact ⟨_, _, _, _, hflow, List.prefix_refl _, hkeeps, hpc ▸ hgoes, htakes⟩
  | dequeue c payloadLen =>
    obtain ⟨flying', waiting', frames', hflow, hkeeps, hgoes, htakes⟩ := h.dequeue hpc hs
    exact ⟨_, _, _, _, hflow, List.prefix_refl _, hkeeps, hpc ▸ hgoes, htakes⟩
  | process c =>
    obtain ⟨hflow, hkeeps, hgoes, htakes⟩ := h.process hpc hs
    exact ⟨_, _, _, _, hflow, List.prefix_append _ _, hkeeps, hpc ▸ hgoes, htakes⟩
  | loadShutdown =>
    rw [LoggerSystem.stepWorker, hpc] at hs
    rw [hpc] at hmove
    cases hshut : s.backend.shutdownRequired with
    | true =>
      exact hmove (.shutdown hshut) trivial trivial (by rw [← Option.some.inj hs, hshut]; rfl)
    | false =>
      exact hmove (.goOn hshut) trivial trivial (by rw [← Option.some.inj hs, hshut]; rfl)
  | loadRequested =>
    rw [LoggerSystem.stepWorker, hpc] at hs
    rw [hpc] at hmove
    exact hmove .requested trivial trivial (Option.some.inj hs).symm
  | loadCompleted req =>
    rw [LoggerSystem.stepWorker, hpc] at hs
    rw [hpc] at hmove
    obtain rfl := Option.some.inj hs
    by_cases hreq : s.backend.flushCompletedSeq < req
    · exact hmove (.due hreq) trivial trivial (by simp [hreq])
    · exact hmove (.notDue hreq) trivial trivial (by simp [hreq])
  | storeCompleted req =>
    rw [LoggerSystem.stepWorker, hpc] at hs
    rw [hpc] at hmove
    exact hmove .completed trivial trivial (Option.some.inj hs).symm
  | drained =>
    rw [LoggerSystem.stepWorker, hpc] at hs
    rw [hpc] at hmove
    exact hmove .drained trivial trivial (Option.some.inj hs).symm
  | storeFinal req =>
    rw [LoggerSystem.stepWorker, hpc] at hs
    rw [hpc] at hmove
    exact hmove .final trivial trivial (Option.some.inj hs).symm

/-! ## The frontend -/

/-- What a step of the frontend leaves alone that is no log call. -/
structure FrontendKeeps (s s' : LoggerSystem env) : Prop where
  accepted : s'.accepted = s.accepted
  counted : s'.logger.enqueuedCount = s.logger.enqueuedCount
  queue : s'.logger.queue = s.logger.queue
  sinks : s'.backend.sinks = s.backend.sinks
  dequeueBuffer : s'.backend.dequeueBuffer = s.backend.dequeueBuffer
  worker : s'.worker = s.worker
  built : s.Built s'

theorem FrontendKeeps.refl (s : LoggerSystem env) : s.FrontendKeeps s :=
  ⟨rfl, rfl, rfl, rfl, rfl, rfl, .refl s⟩

/-- The messages do not notice. -/
theorem Flow.frontend (h : s.Flow done flying waiting frames) (hkeeps : s.FrontendKeeps s') :
    s'.Flow done flying waiting frames :=
  h.of_eq hkeeps.accepted hkeeps.counted hkeeps.built.threadId (hkeeps.queue ▸ h.queue)
    hkeeps.sinks hkeeps.dequeueBuffer hkeeps.worker

theorem beginFlush_keeps (s : LoggerSystem env) : s.FrontendKeeps s.beginFlush := by
  rw [beginFlush]
  split_ifs
  · exact ⟨rfl, rfl, rfl, rfl, rfl, rfl, ⟨rfl, rfl, rfl, rfl, rfl⟩⟩
  · exact .refl s

theorem beginStop_keeps (s : LoggerSystem env) (terminate : Bool) :
    s.FrontendKeeps (s.beginStop terminate) := by
  rw [beginStop]
  split_ifs <;> exact ⟨rfl, rfl, rfl, rfl, rfl, rfl, ⟨rfl, rfl, rfl, rfl, rfl⟩⟩

theorem setLevel_keeps (s : LoggerSystem env) (level : LogLevel) :
    s.FrontendKeeps { s with logger := { s.logger with level } } :=
  ⟨rfl, rfl, rfl, rfl, rfl, rfl, ⟨rfl, rfl, rfl, rfl, rfl⟩⟩

theorem stepFrontend_keeps (hs : s.stepFrontend = some s') : s.FrontendKeeps s' := by
  rw [LoggerSystem.stepFrontend] at hs
  cases hfrontend : s.frontend with
  | idle | terminated =>
    rw [hfrontend] at hs
    cases hs
  | starting =>
    rw [hfrontend] at hs
    rw [← Option.some.inj hs]
    exact ⟨rfl, rfl, rfl, rfl, rfl, rfl, ⟨rfl, rfl, rfl, rfl, rfl⟩⟩
  | flushing seq =>
    rw [hfrontend] at hs
    dsimp only at hs
    split_ifs at hs <;> rw [← Option.some.inj hs]
    · exact .refl s
    · exact ⟨rfl, rfl, rfl, rfl, rfl, rfl, ⟨rfl, rfl, rfl, rfl, rfl⟩⟩
  | stopping =>
    rw [hfrontend] at hs
    rw [← Option.some.inj hs]
    exact s.beginStop_keeps true
  | joining terminate =>
    rw [hfrontend] at hs
    dsimp only at hs
    split_ifs at hs <;> rw [← Option.some.inj hs] <;>
      exact ⟨rfl, rfl, rfl, rfl, rfl, rfl, ⟨rfl, rfl, rfl, rfl, rfl⟩⟩

/-- What a log call leaves of the system, and where it leaves the frontend. -/
structure LogKeeps (s s' : LoggerSystem env) : Prop where
  backend : s'.backend = s.backend
  worker : s'.worker = s.worker
  built : s.Built s'
  frontend : s'.frontend = .idle ∨ s'.frontend = .stopping ∧ s.running = true
  accepted : s'.accepted = s.accepted ∨ s.running = true

/-- **A log call puts its message behind the others**, if it is accepted. -/
theorem Flow.beginLog (h : s.Flow done flying waiting frames) {call : LogCall env}
    (hs : s.beginLog call = some s') :
    ∃ result waiting', s.logger.log s.running call = some result ∧
      s'.Flow done flying waiting' (frames ++ result.accepted.toList) ∧ s.LogKeeps s' := by
  obtain ⟨result, hresult, rfl⟩ := Option.map_eq_some_iff.mp hs
  have hkeeps : ∀ {l' : InternalLogger} {accepted : List (LogCall env)} {terminate : Bool},
      s.logger.Kept l' → s.running = true →
      s.LogKeeps { s with
        logger := l', accepted, frontend := if terminate then .stopping else .idle } := by
    intro l' accepted terminate hkept hrunning
    refine ⟨rfl, rfl, ⟨hkept.threadId, hkept.terminateOnFatal, rfl, rfl, rfl⟩, ?_, .inr hrunning⟩
    cases terminate with
    | false => exact .inl rfl
    | true => exact .inr ⟨rfl, hrunning⟩
  refine ⟨result, ?_⟩
  cases InternalLogger.log_spec h.queue hresult with
  | ignored hpass =>
    refine ⟨waiting, hresult, ?_, ⟨rfl, rfl, ⟨rfl, rfl, rfl, rfl, rfl⟩, .inl rfl, .inl rfl⟩⟩
    rw [Option.toList_none, List.append_nil]
    exact h.of_eq rfl rfl rfl h.queue rfl rfl rfl
  | @dropped l' terminate hpass hkept henqueued hdropped hqueue hterminate =>
    refine ⟨waiting, hresult, ?_, hkeeps hkept hpass.2⟩
    rw [Option.toList_none, List.append_nil]
    exact h.of_eq rfl henqueued hkept.threadId hqueue rfl rfl rfl
  | @enqueued l' bytes e terminate hpass hkept henqueued hdropped hentry hframe hqueue hterminate =>
    have hframed : List.Forall₂ (LogCall.Framed l'.threadId) [call] [bytes] := by
      rw [hkept.threadId]
      exact .cons ⟨e, hentry, hframe⟩ .nil
    refine ⟨waiting ++ [call], hresult, ?_, hkeeps hkept hpass.2⟩
    exact
      { accepted := by
          change s.accepted ++ [call] = _
          rw [h.accepted, List.append_assoc, List.append_assoc]
        counted := by
          change l'.enqueuedCount = BitVec.ofNat 64 (s.accepted ++ [call]).length
          rw [henqueued, h.counted, List.length_append, BitVec.ofNat_add]
          rfl
        sinks := by
          change ∀ sink ∈ s.backend.sinks, List.Forall₂ (LogCall.Handed l'.threadId) done sink
          rw [hkept.threadId]
          exact h.sinks
        waiting := List.rel_append (hkept.threadId ▸ h.waiting) hframed
        queue := by
          rw [Option.toList_some, List.flatten_append, List.flatten_singleton]
          exact hqueue
        worker := hkept.threadId ▸ h.worker.append bytes }

end LoggerSystem

end Femtolog
