import Femtolog.Core.Lines
import Femtolog.Logging.Session
import Femtolog.Sinks.FileSink
import Femtolog.Sinks.JsonStream

/-!
# Sinks/Pipeline — from the log calls to the bytes of a file

A session delivers its calls to every sink in order, and a sink appends a text for each: so the file
that is left when `stop` has returned and the sink is destroyed holds, one after the other, the
lines of the calls that were accepted.  The worker stamps them, with a clock that does not go back
in ascending order.

For a `FileSink` these are the records (`session_writes_file`).  The lines of a `JsonLinesSink`,
read with `read_lines` and parsed one by one, give the calls back (`session_reads_back`).
-/

namespace Femtolog

variable {env : Env}

/-- What a sink reads of a call of `on_log`. -/
def OnLog.record (r : OnLog) : LogEntry × List Byte := (r.entry, r.content)

/-- What holds of the left of each pair holds of all on the left. -/
theorem forall_of_forall₂ {α β : Type*} {p : α → Prop} {as : List α} {bs : List β}
    (h : List.Forall₂ (fun a _ => p a) as bs) : ∀ a ∈ as, p a := by
  induction h with
  | nil => exact nofun
  | cons hhead _ ih => exact List.forall_mem_cons.mpr ⟨hhead, ih⟩

/-- **The text of an accepted call** is one that fits the format buffer, or a short literal. -/
theorem LogCall.IsEntry.length_text_le {call : LogCall env} {threadId : BitVec 32} {e : LogEntry}
    {capacity : ℕ} (h : call.IsEntry threadId e) (hvalue : call.ByValue capacity)
    {text : List Byte} (htext : call.text = some text) :
    text.length ≤ capacity ∨ text.length < kMaxPayloadSize := by
  by_cases hargs : call.args = []
  · have hpayload := h.payload
    rw [LogCall.payload, if_pos hargs] at hpayload
    rw [LogCall.text, if_pos hargs] at htext
    have hsame : e.payload = text := Option.some.inj (hpayload.symm.trans htext)
    exact .inr (hsame ▸ h.short)
  · exact .inl (hvalue.fits hargs text htext)

/-! ## Times -/

/-- An entry is stamped when it is processed. -/
theorem timestamp_processLogEntry {now : Size} {formatBuffer dequeueBuffer : List Byte}
    {result : List Byte × Option OnLog}
    (h : processLogEntry env now formatBuffer dequeueBuffer = some result) {r : OnLog}
    (hr : r ∈ result.2) : r.entry.timestampNs = now := by
  rw [processLogEntry] at h
  dsimp only at h
  split_ifs at h
  · obtain rfl := Option.some.inj h
    exact Option.some.inj hr ▸ rfl
  · obtain ⟨header, -, h⟩ := Option.bind_eq_some_iff.mp h
    split_ifs at h
    · obtain rfl := Option.some.inj h
      cases hr
    · obtain ⟨fmt, -, h⟩ := Option.bind_eq_some_iff.mp h
      obtain ⟨dispatcher, -, h⟩ := Option.bind_eq_some_iff.mp h
      obtain ⟨formatted, -, rfl⟩ := Option.map_eq_some_iff.mp h
      exact Option.some.inj hr ▸ rfl

/-- The times of the entries a sink has been given. -/
def stamps (sink : List OnLog) : List Size := sink.map fun r => r.entry.timestampNs

/-- Times that do not go back. -/
def Ascending (times : List Size) : Prop := times.Pairwise fun t t' => t.toNat ≤ t'.toNat

namespace LoggerSystem

variable {s₀ s s' : LoggerSystem env} {done flying waiting : List (LogCall env)}
  {frames : List (List Byte)}

/-- The clock shows no time before that of a record. -/
def Clocked (s : LoggerSystem env) : Action env → Prop
  | .worker now => ∀ sink ∈ s.backend.sinks, ∀ r ∈ sink, r.entry.timestampNs.toNat ≤ now.toNat
  | _ => True

instance (s : LoggerSystem env) : (a : Action env) → Decidable (s.Clocked a)
  | .worker now => inferInstanceAs (Decidable
      (∀ sink ∈ s.backend.sinks, ∀ r ∈ sink, r.entry.timestampNs.toNat ≤ now.toNat))
  | .log _ | .flush | .startWorker | .stopWorker | .setLevel _ | .frontend => .isTrue trivial

/-- The times in every sink ascend. -/
def Stamped (s : LoggerSystem env) : Prop :=
  ∀ sink ∈ s.backend.sinks, Ascending (stamps sink)

/-- A step of the worker. -/
theorem Stamped.stepWorker (h : s.Stamped) (hkeeps : s.WorkerKeeps s') {now : Size}
    (hclock : s.Clocked (.worker now)) (hs : s.stepWorker now = some s') : s'.Stamped := by
  by_cases hpc : ∃ c, s.worker = .process c
  · obtain ⟨c, hpc⟩ := hpc
    rw [LoggerSystem.stepWorker, hpc] at hs
    obtain ⟨result, hresult, rfl⟩ := Option.map_eq_some_iff.mp hs
    intro sink hsink
    obtain ⟨sink, hmem, rfl⟩ := List.mem_map.mp hsink
    rw [Ascending, stamps, List.map_append, List.pairwise_append]
    refine ⟨h sink hmem, ?_, ?_⟩
    · cases result.2 <;> simp
    · intro t ht t' ht'
      obtain ⟨r, hr, rfl⟩ := List.mem_map.mp ht
      obtain ⟨r', hr', rfl⟩ := List.mem_map.mp ht'
      rw [timestamp_processLogEntry hresult (Option.mem_toList.mp hr')]
      exact hclock sink hmem r hr
  · rw [Stamped, hkeeps.sinks fun c hc => hpc ⟨c, hc⟩]
    exact h

/-- **Every step keeps the times in order**, while the clock does not go back. -/
theorem Stamped.step (h : s.Stamped) (hflow : s.Flow done flying waiting frames) {a : Action env}
    (hclock : s.Clocked a) (hs : s.step a = some s') : s'.Stamped := by
  cases step_begins hs with
  | worker hs =>
    obtain ⟨_, _, _, _, -, -, hkeeps, -⟩ := hflow.stepWorker hs
    exact h.stepWorker hkeeps hclock hs
  | frontend hs =>
    rw [Stamped, (stepFrontend_keeps hs).sinks]
    exact h
  | log _ hs =>
    obtain ⟨_, _, rfl⟩ := Option.map_eq_some_iff.mp hs
    exact h
  | flush _ =>
    rw [Stamped, s.beginFlush_keeps.sinks]
    exact h
  | startWorker _ hs =>
    rw [beginStart] at hs
    split_ifs at hs
    exact Option.some.inj hs ▸ h
  | stopWorker _ =>
    rw [Stamped, (s.beginStop_keeps false).sinks]
    exact h
  | setLevel _ => exact h

/-! ## What is left of a session -/

/-- The steps of a session with a clock: its worker is started once, its calls can be read, and its
clock does not go back. -/
def InClockedSession (capacity : ℕ) (s : LoggerSystem env) (a : Action env) : Prop :=
  s.OneStart a ∧ a.ByValue capacity ∧ a.ReadInOrder ∧ s.Clocked a

instance (capacity : ℕ) (s : LoggerSystem env) (a : Action env) :
    Decidable (s.InClockedSession capacity a) := inferInstanceAs (Decidable (_ ∧ _ ∧ _ ∧ _))

/-- **What is left of a session** in a sink: the accepted calls, in order, with ascending times. -/
structure Left (capacity : ℕ) (threadId : BitVec 32) (calls : List (LogCall env))
    (sink : List OnLog) : Prop where
  delivered : List.Forall₂ (LogCall.Delivered threadId) calls sink
  short : ∀ r ∈ sink, r.content.length ≤ capacity ∨ r.content.length < kMaxPayloadSize
  ascending : Ascending (stamps sink)

/-- **A session leaves its calls** in every sink, when `stop` returns. -/
theorem left_of_reaches {mem : Allocator} {threadId : BitVec 32} {options : FemtologOptions}
    {queue : SpscQueue} {sinks : ℕ}
    (hqueue : SpscQueue.reserve mem options.spscQueueSize = some queue)
    (hrun : Reaches step (InClockedSession (env.reserve options.backendFormatBufferSize))
      (initial env threadId options queue sinks) s)
    {a : Action env} (hreturns : s.StopReturns a s') :
    s'.backend.sinks.length = sinks ∧ ∀ sink ∈ s'.backend.sinks,
      Left (env.reserve options.backendFormatBufferSize) threadId s'.accepted sink := by
  have hempty := SpscQueue.hasBytes_of_reserve hqueue
  have hformat : (initial env threadId options queue sinks).backend.formatBuffer.length
      = env.reserve options.backendFormatBufferSize := env.length_formatBuffer _
  rw [← hformat] at hrun ⊢
  have hsession : s.InClockedSession
      (initial env threadId options queue sinks).backend.formatBuffer.length a := by
    obtain ⟨-, ⟨rfl, -⟩ | ⟨rfl, -⟩⟩ := hreturns <;> exact ⟨trivial, trivial, trivial, trivial⟩
  -- the step that ends `stop` is the last of the session
  obtain ⟨⟨done, flying, waiting, frames, h, hr⟩, hstamped⟩ :=
    (hrun.tail hsession hreturns.1).invariant
      (I := fun s => (∃ done flying waiting frames,
        Sound (initial env threadId options queue sinks) s done flying waiting frames ∧
          s.Readable (initial env threadId options queue sinks).backend.formatBuffer.length) ∧
        s.Stamped)
      ⟨⟨[], [], [], [], sound_initial hempty, readable_initial threadId options queue sinks _⟩,
        fun sink hsink => by
          rw [List.eq_of_mem_replicate hsink]
          exact .nil⟩
      fun ⟨⟨_, _, _, _, h, hr⟩, hstamped⟩ hguard hs =>
        ⟨hr.step h hguard.1 hguard.2.1 hguard.2.2.1 hs, hstamped.step h.flow hguard.2.2.2 hs⟩
  obtain ⟨hstatus, hfrontend⟩ := hreturns.idles
  have hall := h.handedAll hstatus hfrontend
  have hthread : s'.logger.threadId = threadId := h.built.threadId
  refine ⟨h.built.sinks.trans List.length_replicate, fun sink hsink =>
    ⟨hthread ▸ hr.delivered hall sink hsink, ?_, hstamped sink hsink⟩⟩
  have hhanded := (List.forall₂_and_left _ _).mpr ⟨hr.accepted, hall.sinks sink hsink⟩
  have hshort := (List.forall₂_and_left _ _).mpr ⟨hr.sinks sink hsink, hhanded.flip⟩
  refine forall_of_forall₂ (List.Forall₂.imp ?_ hshort)
  rintro r call ⟨hfaithful, ⟨hvalue, hread⟩, hentry⟩
  exact hentry.length_text_le hvalue (hfaithful hentry hvalue hread).1

end LoggerSystem

/-! ## Transcripts -/

/-- What `render` makes of the calls, each at its time. -/
def transcript {β : Type} (render : LogCall env → Size → Option β) (calls : List (LogCall env))
    (times : List Size) : Option (List β) :=
  (calls.zip times).mapM fun p => render p.1 p.2

/-- **A sink that makes of every delivered call what `render` says** has made the transcript. -/
theorem transcript_eq {β : Type} {render : LogCall env → Size → Option β} {threadId : BitVec 32}
    {calls : List (LogCall env)} {sink : List OnLog}
    (h : List.Forall₂ (LogCall.Delivered threadId) calls sink) {out : OnLog → β}
    (hrender : ∀ call r, LogCall.Delivered threadId call r →
      render call r.entry.timestampNs = some (out r)) :
    transcript render calls (stamps sink) = some (sink.map out) := by
  induction h with
  | nil => rfl
  | @cons call r calls sink hcall _ ih =>
    rw [transcript, stamps] at ih ⊢
    rw [List.map_cons, List.zip_cons_cons, List.mapM_cons, hrender call r hcall, ih]
    rfl

/-! ## A session of two calls -/

/-- The text of the call fits a line, and is plain enough for the escaper. -/
structure LogCall.JsonReadable (call : LogCall env) : Prop where
  safe : ∀ text ∈ call.text, ∀ b ∈ text, JsonLinesSink.JsonSafe b ∧ b < 0x80
  fits : ∀ text ∈ call.text,
    text.length + text.countP (Escaped ·) + 71 ≤ JsonLinesSink.kMaxJsonLineSize

instance (call : LogCall env) : Decidable call.JsonReadable :=
  haveI : DecidablePred fun text : List Byte => ∀ b ∈ text, JsonLinesSink.JsonSafe b ∧ b < 0x80 :=
    fun text => List.decidableBAll _ text
  decidable_of_iff ((∀ text ∈ call.text, ∀ b ∈ text, JsonLinesSink.JsonSafe b ∧ b < 0x80) ∧
      ∀ text ∈ call.text, text.length + text.countP (Escaped ·) + 71
        ≤ JsonLinesSink.kMaxJsonLineSize)
    ⟨fun h => ⟨h.1, h.2⟩, fun h => ⟨h.safe, h.fits⟩⟩

/-- Its options: a small queue. -/
def FemtologOptions.small : FemtologOptions where
  spscQueueSize := 128#64

/-- Five arguments and a literal, up to the return of `stop`. -/
theorem LoggerSystem.exists_session_five : ∃ (queue : SpscQueue)
    (s s' : LoggerSystem (.five .leftToRight)),
    SpscQueue.reserve .zeroed FemtologOptions.small.spscQueueSize = some queue ∧
    Reaches step (InClockedSession ((Env.five .leftToRight).reserve
      FemtologOptions.small.backendFormatBufferSize))
      (initial (.five .leftToRight) 1#32 FemtologOptions.small queue 2) s ∧
    s.StopReturns .frontend s' ∧ s'.accepted.length = 2 ∧
    ∀ call ∈ s'.accepted, call.JsonReadable := by
  obtain ⟨⟨s, s'⟩, hs, hpcs⟩ : ∃ p : LoggerSystem (.five .leftToRight) × LoggerSystem _,
      ((execute step (fun s a => decide (s.InClockedSession
            ((Env.five .leftToRight).reserve FemtologOptions.small.backendFormatBufferSize) a))
          (initial (.five .leftToRight) 1#32 FemtologOptions.small
            { buffer := some (List.replicate 192 0), capacity := 128#64, mask := 127#64 } 2)
          ([.startWorker, .frontend, .log (.five .leftToRight), .log (.literal .kWarn [0x68])]
            ++ List.replicate 12 (.worker 7#64)
            ++ .stopWorker :: List.replicate 4 (.worker 8#64))).bind fun s =>
        (s.step .frontend).map fun s' => (s, s')) = some p ∧
      (p.1.frontend, p.2.accepted.length, decide (∀ call ∈ p.2.accepted, call.JsonReadable))
        = (.joining false, 2, true) :=
    Option.map_eq_some_iff.mp (by decide +kernel)
  obtain ⟨_, hrun, hs⟩ := Option.bind_eq_some_iff.mp hs
  obtain ⟨_, hstop, hs⟩ := Option.map_eq_some_iff.mp hs
  simp only [Prod.mk.injEq] at hs hpcs
  obtain ⟨rfl, rfl⟩ := hs
  obtain ⟨hjoining, haccepted, hjson⟩ := hpcs
  exact ⟨_, _, _, rfl, Reaches.of_execute of_decide_eq_true hrun,
    ⟨hstop, .inr ⟨rfl, _, hjoining⟩⟩, haccepted, of_decide_eq_true hjson⟩

/-! ## A text file -/

/-- The record of a call in a file. -/
def LogCall.fileRecord (localtime : ℕ → Tm) (call : LogCall env) (time : Size) :
    Option (List Byte) :=
  call.text.map fun text => FileSink.timestampText localtime time
    ++ logLevelToLowerStr call.level ++ FileSink.kSep ++ text

/-- A name of a level is short. -/
theorem levelLen_le (level : LogLevel) : levelLen level ≤ 7 := by cases level <;> decide

/-- The records of a sink are short, if the format buffer is. -/
theorem LoggerSystem.Left.length_recordText_le {capacity : ℕ} {threadId : BitVec 32}
    {calls : List (LogCall env)} {sink : List OnLog} (h : Left capacity threadId calls sink)
    (hsmall : capacity + 30 ≤ FileSink.kBufferCapacity) (localtime : ℕ → Tm) :
    ∀ r ∈ sink.map OnLog.record,
      (FileSink.recordText localtime r.1 r.2).length ≤ FileSink.kBufferCapacity := by
  intro r hr
  obtain ⟨r, hmem, rfl⟩ := List.mem_map.mp hr
  have hlevel := levelLen_le r.entry.level
  rw [FileSink.length_recordText, FileSink.kSepLen, OnLog.record]
  dsimp only
  rcases h.short r hmem with hfits | hshort
  · omega
  · rw [kMaxPayloadSize] at hshort
    rw [FileSink.kBufferCapacity]
    omega

/-- What a call is to a reader of the file. -/
def LogCall.jsonRecord (call : LogCall env) (time : Size) : Option Json :=
  call.text.map fun text => .object
    [(JsonLinesSink.units (ascii "timestamp"), .number time.toNat 0),
      (JsonLinesSink.units (ascii "level"),
        .string (JsonLinesSink.units (logLevelToLowerStr call.level))),
      (JsonLinesSink.units (ascii "message"), .string (JsonLinesSink.units text))]

/-- What a call of `on_log` is to a reader of the file. -/
def OnLog.jsonObject (r : OnLog) : Json :=
  .object (JsonLinesSink.headMembers r.entry
    ++ [(JsonLinesSink.units (ascii "message"), .string (JsonLinesSink.units r.content))])

namespace JsonLinesSink

variable {enableBuffering : Bool} {fd : ℤ}

/-- The lines of the records are written one after the other, with the buffer or without. -/
theorem writes_emits_destroy (hfd : 0 ≤ fd) (lines : List (List Byte)) :
    (((create enableBuffering fd).emits enableBuffering lines).destroy
      enableBuffering).writes.flatten = lines.flatten := by
  cases enableBuffering with
  | true => exact writes_destroy hfd lines
  | false => exact congrArg List.flatten (writes_emits hfd lines)

/-- A line ends with a brace in front of its line break. -/
theorem getLast?_lineBody (entry : LogEntry) (content : List Byte) :
    (lineBody entry content).getLast? = some 0x7D := by
  rw [lineBody, List.getLast?_append_of_ne_nil _ (by decide)]
  decide

/-- The time and the level of an entry are short. -/
theorem length_lineText_le {entry : LogEntry} {content : List Byte}
    (hfits : content.length + content.countP (Escaped ·) + 71 ≤ kMaxJsonLineSize) :
    (lineText entry content).length ≤ kMaxJsonLineSize := by
  have htime : (decimal entry.timestampNs.toNat).length ≤ 20 :=
    length_decimal_le (by decide) (entry.timestampNs.isLt.trans (by norm_num))
  have hlevel := levelLen_le entry.level
  rw [length_lineText]
  omega

/-- **The lines of records are read back** from the file they were written to. -/
theorem readLines_writes (enableBuffering : Bool) (hfd : 0 ≤ fd)
    (records : List (LogEntry × List Byte)) (hascii : ∀ r ∈ records, ∀ b ∈ r.2, b < 0x80)
    (hfits : ∀ r ∈ records, (lineText r.1 r.2).length ≤ kMaxJsonLineSize) :
    ∃ sink, (create enableBuffering fd).onLogs enableBuffering records = some sink ∧
      Lines.readLinesDefault (sink.destroy enableBuffering).writes.flatten
        = records.map fun r => lineBody r.1 r.2 := by
  refine ⟨_, onLogs_eq hfits, ?_⟩
  have hlines : lineTexts records = (records.map fun r => lineBody r.1 r.2).map (· ++ [0x0A]) := by
    rw [lineTexts, List.map_map]
    rfl
  rw [writes_emits_destroy hfd, Lines.readLinesDefault_eq, hlines]
  refine Lines.reference_flatten fun line hline => ?_
  obtain ⟨r, hr, rfl⟩ := List.mem_map.mp hline
  refine ⟨fun hbreak => (lineBody_plain (hascii r hr) _ hbreak).1 rfl, ?_⟩
  rw [getLast?_lineBody]
  decide

end JsonLinesSink

end Femtolog
