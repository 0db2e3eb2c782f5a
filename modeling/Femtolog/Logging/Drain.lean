import Femtolog.Logging.DequeueBuffer
import Femtolog.Logging.Message

/-!
# Logging/Drain — whether the worker can empty the queue

The worker takes an entry into its dequeue buffer and processes it there, before it takes the next.
Whether it stays within the buffer all the way is decided by what lies in queue and buffer
(`Drains`), and no step changes the answer (`Flow.clear_step`).  A buffer for the longest entry is
enough, if the arguments are read in their order (`Flow.drainsWith`).
-/

namespace Femtolog

variable {env : Env}

/-! ## One entry after the other -/

/-- The entry in the dequeue buffer is processed, and nothing on the way is undefined. -/
def Processable (env : Env) (dequeueBuffer : List Byte) : Prop :=
  (processLogEntry env 0#64 [] dequeueBuffer).isSome = true

/-- **Time and format buffer do not matter** for that. -/
theorem isSome_processLogEntry (now : Size) (formatBuffer dequeueBuffer : List Byte) :
    (processLogEntry env now formatBuffer dequeueBuffer).isSome = true
      ↔ Processable env dequeueBuffer := by
  rw [Processable, processLogEntry, processLogEntry]
  dsimp only
  split_ifs with hformat hlen
  · exact Iff.rfl
  · exact Iff.rfl
  · cases headerAt (dequeueBuffer.drop sizeofLogEntry) with
    | none => exact Iff.rfl
    | some header =>
      rw [Option.bind_some, Option.bind_some]
      split_ifs
      · exact Iff.rfl
      · cases env.formatAt header.formatFunc with
        | none => exact Iff.rfl
        | some fmt =>
          rw [Option.bind_some, Option.bind_some]
          cases env.deserializeAt header.deserializeAndFormatFunc with
          | none => exact Iff.rfl
          | some dispatcher =>
            rw [Option.bind_some, Option.bind_some, deserializeAndFormat_map,
              deserializeAndFormat_map _ _ _ (FormatDispatcher.format env fmt [])]
            simp only [Option.isSome_map]

/-- **The frames go through the buffer**: each fits, and is processed there before the next. -/
def GoThrough (env : Env) : List Byte → List (List Byte) → Prop
  | _, [] => True
  | buffer, frame :: frames =>
    frame.length ≤ buffer.length ∧ Processable env (splice buffer 0 frame) ∧
      GoThrough env (splice buffer 0 frame) frames

namespace LogCall

variable {threadId : BitVec 32} {call : LogCall env} {frame frame' : List Byte}

/-- Two frames of a call differ in their padding and in the time at most. -/
theorem Framed.processLogEntry_eq (h : call.Framed threadId frame)
    (h' : call.Framed threadId frame') (now : Size) (formatBuffer rest : List Byte) :
    frame'.length = frame.length ∧
      processLogEntry env now formatBuffer (frame' ++ rest)
        = processLogEntry env now formatBuffer (frame ++ rest) := by
  obtain ⟨e, he, hframe⟩ := h
  obtain ⟨e', he', hframe'⟩ := h'
  have hpayload : e'.payload = e.payload :=
    Option.some.inj (he'.payload.symm.trans he.payload)
  have hlen : e'.payloadLen = e.payloadLen := by
    refine BitVec.eq_of_toNat_eq ?_
    rw [← he'.sized, ← he.sized, hpayload]
  have hentry : { e' with timestampNs := now } = { e with timestampNs := now } := by
    rw [LogEntry.mk.injEq]
    exact ⟨hlen, he'.formatId.trans he.formatId.symm, he'.threadId.trans he.threadId.symm, rfl,
      he'.level.trans he.level.symm, hpayload⟩
  refine ⟨?_, ?_⟩
  · rw [hframe.length_eq, hframe'.length_eq, LogEntry.totalSize, LogEntry.totalSize, hlen]
  · rw [processLogEntry, processLogEntry, hframe.parse_append, hframe'.parse_append,
      hframe.drop_append, hframe'.drop_append, hentry, hpayload]

/-- Which frame of the last call it is does not matter. -/
theorem Framed.goThrough (h : call.Framed threadId frame) (h' : call.Framed threadId frame')
    {frames : List (List Byte)} {buffer : List Byte}
    (hgo : GoThrough env buffer (frames ++ [frame])) :
    GoThrough env buffer (frames ++ [frame']) := by
  induction frames generalizing buffer with
  | nil =>
    obtain ⟨hfits, hprocess, -⟩ := hgo
    obtain ⟨hlen, heq⟩ := h.processLogEntry_eq h' 0#64 [] (buffer.drop frame.length)
    refine ⟨hlen ▸ hfits, ?_, trivial⟩
    rw [Processable, splice_zero] at hprocess ⊢
    rwa [hlen, heq]
  | cons _ frames ih => exact ⟨hgo.1, hgo.2.1, ih hgo.2.2⟩

/-- **An entry whose arguments are read in order is processed**, in either mode. -/
theorem Framed.processable (h : call.Framed threadId frame)
    (horder : env.order.InOrder call.args.length) (rest : List Byte) :
    Processable env (frame ++ rest) := by
  obtain ⟨e, he, hframe⟩ := h
  by_cases hargs : call.args = []
  · have hsized : serializedSize false call.args < 2 ^ 64 := by
      rw [hargs]
      decide
    have hvalue : call.ByValue ([] : List Byte).length := ⟨(absurd hargs ·), (absurd hargs ·)⟩
    obtain ⟨formatBuffer', r, hprocess, -⟩ :=
      he.process hframe hvalue ⟨horder, hsized⟩ 0#64 rest
    rw [Processable, hprocess]
    rfl
  · obtain ⟨records, hrecords⟩ := Femtolog.exists_records call.refMode call.mem call.strings
      fun a ha => (call.compiles hargs).supported_arg ha
    rw [Processable, processLogEntry_of_message (he.formatId_parse hframe hargs rest)
      (he.messageIn_records hframe hargs horder hrecords rest)]
    rfl

end LogCall

theorem largestEntry_mono : Monotone largestEntry := fun _ _ h => min_le_min_left _ h

/-- **Entries go through a buffer for the longest of them**, if their arguments are read in
order. -/
theorem goThrough_of_room {threadId : BitVec 32} {calls : List (LogCall env)}
    {frames : List (List Byte)} (hframed : List.Forall₂ (LogCall.Framed threadId) calls frames)
    (hread : ∀ call ∈ calls, env.order.InOrder call.args.length) {buffer : List Byte}
    (hroom : largestEntry frames.flatten.length ≤ buffer.length) :
    GoThrough env buffer frames := by
  induction hframed generalizing buffer with
  | nil => trivial
  | @cons call frame calls frames hcall _ ih =>
    rw [List.flatten_cons, List.length_append] at hroom
    have hfits : frame.length ≤ buffer.length := by
      have hlt := hcall.length_mem.2
      rw [largestEntry] at hroom
      omega
    have hlen : (splice buffer 0 frame).length = buffer.length := length_splice (by omega)
    refine ⟨hfits, ?_, ih (fun c hc => hread c (List.mem_cons_of_mem _ hc)) ?_⟩
    · rw [splice_zero]
      exact hcall.processable (hread call List.mem_cons_self) _
    · rw [hlen]
      exact (largestEntry_mono (Nat.le_add_left _ _)).trans hroom

namespace LoggerSystem

variable {s s' : LoggerSystem env} {done flying waiting : List (LogCall env)}
  {frames frames' : List (List Byte)}

/-! ## The worker's work -/

/-- **The worker can empty the queue** with the frames: it stays within its dequeue buffer with the
entry it has, if it has one, and with each that follows. -/
@[mk_iff] structure Drains (s : LoggerSystem env) (frames : List (List Byte)) : Prop where
  processes : ∀ c, s.worker = .process c → Processable env s.backend.dequeueBuffer
  goThrough : GoThrough env s.backend.dequeueBuffer frames

/-- What has been done was possible. -/
theorem Takes.drains_iff (h : s.Takes s' frames frames') {now : Size}
    (hs : s.stepWorker now = some s') : s'.Drains frames' ↔ s.Drains frames := by
  cases h with
  | nothing hpc hworker hbuffer =>
    rw [drains_iff, drains_iff, hbuffer]
    refine and_congr_left fun _ => iff_of_true (fun c hc => absurd hc (hworker c)) fun c hpc => ?_
    rw [LoggerSystem.stepWorker, hpc] at hs
    obtain ⟨result, hresult, -⟩ := Option.map_eq_some_iff.mp hs
    rw [← isSome_processLogEntry now s.backend.formatBuffer, hresult]
    rfl
  | @front frame frames c payloadLen hpc hworker hfits hbuffer =>
    rw [drains_iff, drains_iff, hbuffer]
    constructor
    · rintro ⟨hprocess, hgo⟩
      exact ⟨fun c' hc' => by simp [hpc] at hc', hfits, hprocess c hworker, hgo⟩
    · rintro ⟨-, -, hprocess, hgo⟩
      exact ⟨fun _ _ => hprocess, hgo⟩

/-- **A worker that can empty the queue takes its next step.** -/
theorem Flow.works (h : s.Flow done flying waiting frames) (hdrains : s.Drains frames)
    (hstarted : s.worker ≠ .unstarted) (hexited : s.worker ≠ .exited) (now : Size) :
    ∃ s', s.stepWorker now = some s' := by
  refine exists_stepWorker hstarted hexited now (fun c payloadLen hpc => ?_) fun c hpc => ?_
  · obtain ⟨-, call, frame, waiting', frames', queue, -, rfl, -, -, hdequeue, -⟩ :=
      h.dequeueBytes hpc
    rw [LoggerSystem.stepWorker, hpc]
    dsimp only
    rw [hdequeue]
    exact ⟨_, if_pos hdrains.goThrough.1⟩
  · have hprocess := (isSome_processLogEntry now s.backend.formatBuffer _).mpr
      (hdrains.processes c hpc)
    obtain ⟨result, hresult⟩ := Option.isSome_iff_exists.mp hprocess
    rw [LoggerSystem.stepWorker, hpc]
    dsimp only
    rw [hresult]
    exact ⟨_, rfl⟩

/-- The worker has emptied the queue, or it can. -/
def Clear (s : LoggerSystem env) (frames : List (List Byte)) : Prop :=
  s.worker.PastDrain ∨ s.Drains frames

theorem Flow.clear_works (h : s.Flow done flying waiting frames) (hclear : s.Clear frames)
    (hstarted : s.worker ≠ .unstarted) (hexited : s.worker ≠ .exited) (now : Size) :
    ∃ s', s.stepWorker now = some s' := by
  rcases hclear with hpast | hdrains
  · have hplain := hpast.plain
    refine exists_stepWorker hstarted hexited now (fun c payloadLen hpc => ?_) fun c hpc => ?_
    · rw [hpc] at hplain
      exact hplain.elim
    · rw [hpc] at hplain
      exact hplain.elim
  · exact h.works hdrains hstarted hexited now

/-- A step of the worker. -/
theorem Flow.clear_stepWorker (h : s.Flow done flying waiting frames) {now : Size}
    (hs : s.stepWorker now = some s') :
    ∃ done' flying' waiting' frames', s'.Flow done' flying' waiting' frames' ∧
      (s'.Clear frames' ↔ s.Clear frames) := by
  obtain ⟨done', flying', waiting', frames', h', -, -, hgoes, htakes⟩ := h.stepWorker hs
  refine ⟨done', flying', waiting', frames', h', ?_, ?_⟩
  · rintro (hpast | hdrains)
    · rcases hgoes.pastDrain hpast with hsettled | hpast
      · -- the peek that finds nothing ends a drain with nothing left to take
        have hnone := List.self_eq_append_right.mp (hsettled.trans h.accepted)
        obtain ⟨rfl, rfl⟩ := List.append_eq_nil_iff.mp hnone
        obtain rfl := List.forall₂_nil_left_iff.mp h.waiting
        refine .inr ⟨fun c hpc => ?_, trivial⟩
        have hworker := h.worker
        rw [hpc] at hworker
        obtain ⟨_, _, _, hflying, -⟩ := hworker
        cases hflying
      · exact .inl hpast
    · exact .inr ((htakes.drains_iff hs).mp hdrains)
  · rintro (hpast | hdrains)
    · exact .inl (hgoes.pastDrain_next hpast)
    · exact .inr ((htakes.drains_iff hs).mpr hdrains)

/-- **No step changes whether the worker can empty the queue**, while no call begins. -/
theorem Flow.clear_step (h : s.Flow done flying waiting frames) (hbusy : s.frontend ≠ .idle)
    {a : Action env} (hs : s.step a = some s') :
    ∃ done' flying' waiting' frames', s'.Flow done' flying' waiting' frames' ∧
      (s'.Clear frames' ↔ s.Clear frames) := by
  cases step_begins hs with
  | worker hs => exact h.clear_stepWorker hs
  | frontend hs =>
    have hkeeps := stepFrontend_keeps hs
    refine ⟨_, _, _, _, h.frontend hkeeps, ?_⟩
    rw [Clear, Clear, drains_iff, drains_iff, hkeeps.worker, hkeeps.dequeueBuffer]
  | log hidle _ | flush hidle | startWorker hidle _ | stopWorker hidle | setLevel hidle =>
    exact absurd hidle hbusy

/-! ## The work that a call adds -/

/-- The frames in the queue after an enqueue of one more: it comes last, if there is room. -/
def enqueued (s : LoggerSystem env) (frames : List (List Byte)) (frame : List Byte) :
    List (List Byte) :=
  if frames.flatten.length + frame.length ≤ s.logger.queue.capacity.toNat then frames ++ [frame]
  else frames

/-- **The worker can empty the queue after the call**: with the frames that are in it, and the one
of the call's entry. -/
def DrainsWith (s : LoggerSystem env) (call : LogCall env) : Prop :=
  ∃ done flying waiting frames frame, s.Flow done flying waiting frames ∧
    call.Framed s.logger.threadId frame ∧ s.Drains (s.enqueued frames frame)

/-- Which frame of the call it is does not matter. -/
theorem Drains.enqueued {threadId : BitVec 32} {call : LogCall env} {frame frame' : List Byte}
    (h : s.Drains (s.enqueued frames frame)) (hframe : call.Framed threadId frame)
    (hframe' : call.Framed threadId frame') : s.Drains (s.enqueued frames frame') := by
  refine ⟨h.processes, ?_⟩
  have hgo := h.goThrough
  rw [LoggerSystem.enqueued] at hgo ⊢
  rw [(hframe.processLogEntry_eq hframe' 0#64 [] []).1]
  split_ifs at hgo ⊢
  · exact hframe.goThrough hframe' hgo
  · exact hgo

/-- **A buffer for the longest entry is enough**, if the arguments are read in order. -/
theorem Flow.drainsWith (h : s.Flow done flying waiting frames) {call : LogCall env}
    {frame : List Byte} (hframed : call.Framed s.logger.threadId frame)
    (hroom : largestEntry s.logger.queue.capacity.toNat ≤ s.backend.dequeueBuffer.length)
    (hread : ∀ c ∈ s.accepted ++ [call], env.order.InOrder c.args.length) :
    s.DrainsWith call := by
  have hmem : ∀ c ∈ flying ++ waiting, c ∈ s.accepted ++ [call] := fun c hc => by
    rw [h.accepted]
    exact List.mem_append_left _ (List.mem_append_right _ hc)
  refine ⟨done, flying, waiting, frames, frame, h, hframed, fun c hpc => ?_, ?_⟩
  · have hworker := h.worker
    rw [hpc] at hworker
    obtain ⟨call', bytes, rest, rfl, hframed', hbuffer⟩ := hworker
    rw [hbuffer]
    exact hframed'.processable (hread call' (hmem call' List.mem_cons_self)) rest
  · rw [enqueued]
    split_ifs with hfits
    · refine goThrough_of_room (List.rel_append h.waiting (.cons hframed .nil)) (fun c hc => ?_)
        ((largestEntry_mono ?_).trans hroom)
      · rcases List.mem_append.mp hc with hold | hnew
        · exact hread c (hmem c (List.mem_append_right _ hold))
        · exact hread c (List.mem_append_right _ hnew)
      · rwa [List.flatten_append, List.flatten_singleton, List.length_append]
    · exact goThrough_of_room h.waiting (fun c hc => hread c (hmem c (List.mem_append_right _ hc)))
        ((largestEntry_mono h.queue.length_le).trans hroom)

end LoggerSystem

end Femtolog
