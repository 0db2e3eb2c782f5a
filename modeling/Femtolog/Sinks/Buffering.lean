import Femtolog.Sinks.FileSink
import Femtolog.Sinks.JsonStream
import Femtolog.Sinks.StdoutSink

/-!
# Sinks/Buffering — closed descriptors and partial writes

The buffered sinks share their `flush`.  It returns early when the file could not be opened, and
the buffer fills up (`sinks_within_iff`).  It does not look at what `write` returns, and empties the
buffer whatever has been accepted (`sinks_conserve_iff`).
-/

namespace Femtolog

/-! ## Files that could not be opened -/

/-- **The sinks stay inside their buffers** exactly if the file is open, or the records that are
short enough for the buffer fit it all together. -/
theorem sinks_within_iff (localtime : ℕ → Tm) (fd : ℤ) (logs : List (LogEntry × List Byte))
    (reads : List ((LogEntry × List Byte) × (ℕ → Byte))) :
    ((∀ k, ((FileSink.create fd).onLogs localtime (logs.take k)).Within)
      ↔ 0 ≤ fd ∨ ((logs.map fun r => 21 + levelLen r.1.level + FileSink.kSepLen + r.2.length).filter
          (· ≤ FileSink.kBufferCapacity)).sum ≤ FileSink.kBufferCapacity)
    ∧ ((∀ k, ((JsonLinesSink.create true fd).onLogsPast (reads.take k)).Within)
      ↔ 0 ≤ fd ∨ ((reads.map fun r => (JsonLinesSink.lineText r.1.1 r.1.2).length).filter
          (· ≤ JsonLinesSink.kBufferCapacity)).sum ≤ JsonLinesSink.kBufferCapacity) := by
  exact ⟨FileSink.within_onLogs_iff localtime fd logs, JsonLinesSink.within_onLogsPast_iff fd reads⟩

/-- Two records of 3000 bytes where the file could not be opened. -/
theorem closed_sink_past_end : ¬∀ (localtime : ℕ → Tm) (fd : ℤ)
    (logs : List (LogEntry × List Byte)) (reads : List ((LogEntry × List Byte) × (ℕ → Byte))),
    (∀ k, ((FileSink.create fd).onLogs localtime (logs.take k)).Within)
      ∧ ∀ k, ((JsonLinesSink.create true fd).onLogsPast (reads.take k)).Within := by
  intro hall
  have hpast : ∀ content : List Byte, content.length = 3000 →
      ¬∀ k, ((FileSink.create (-1)).onLogs (fun _ => ⟨0, 0, 0⟩)
        ((List.replicate 2 (⟨0, 0, 0, 0, .kInfo, []⟩, content)).take k)).Within := by
    intro content hlength hwithin
    have hsum := (FileSink.within_onLogs_iff _ _ _).mp hwithin
    simp only [List.map_replicate, hlength] at hsum
    revert hsum
    decide
  exact hpast (List.replicate 3000 0x61) List.length_replicate (hall _ _ _ []).1

/-! ## Writes that accept less than they are given -/

/-- **The sinks lose nothing of what they buffer** exactly if `write` accepts all of every buffer
that `flush` passes to it. -/
theorem sinks_conserve_iff (results : ℕ → Option ℕ) :
    (∀ localtime s es, (FileSink.driver localtime).Conserves results s es
      ↔ ∀ c ∈ (FileSink.driver localtime).flushes s es, c.1.length ≤ (results c.2).getD 0)
    ∧ (∀ s es, JsonLinesSink.driver.Conserves results s es
      ↔ ∀ c ∈ JsonLinesSink.driver.flushes s es, c.1.length ≤ (results c.2).getD 0)
    ∧ (∀ ansi s es, (StdoutSink.driver ansi).Conserves results s es
      ↔ ∀ c ∈ (StdoutSink.driver ansi).flushes s es, c.1.length ≤ (results c.2).getD 0) :=
  ⟨fun _ _ _ => Outlet.Driver.conserves_iff, fun _ _ => Outlet.Driver.conserves_iff,
    fun _ _ _ => Outlet.Driver.conserves_iff⟩

/-- The sink at midnight. -/
def FileSink.atMidnight : Outlet.Driver FileSink (LogEntry × List Byte) Byte :=
  FileSink.driver fun _ => ⟨0, 0, 0⟩

/-- A short record. -/
def FileSink.shortRecord : LogEntry × List Byte := (⟨0, 0, 0, 0, .kInfo, []⟩, ascii "up")

/-- Logged by an open sink, the record is in its buffer. -/
theorem FileSink.view_shortRecord : atMidnight.view (atMidnight.log (.create 3) shortRecord)
    = { (create 3).view with
        buffer := (create 3).view.buffer.memcpy
          (recordText (fun _ => ⟨0, 0, 0⟩) shortRecord.1 shortRecord.2) } := by
  have hview : atMidnight.view (atMidnight.log (.create 3) shortRecord)
      = (create 3).view.log (record (fun _ => ⟨0, 0, 0⟩) shortRecord) :=
    atMidnight.view_log (fun _ => rfl) _ shortRecord
  rw [hview, Outlet.log_of_fits (by decide)]
  rfl

/-- `flush` passes it to `write`. -/
theorem FileSink.flushesOf_shortRecord :
    atMidnight.flushesOf (atMidnight.log (.create 3) shortRecord) .flush
      = [(recordText (fun _ => ⟨0, 0, 0⟩) shortRecord.1 shortRecord.2,
        (atMidnight.view (atMidnight.log (.create 3) shortRecord)).writes.length)] := by
  have hheld : atMidnight.held (atMidnight.log (.create 3) shortRecord)
      = recordText (fun _ => ⟨0, 0, 0⟩) shortRecord.1 shortRecord.2 := by
    rw [Outlet.Driver.held, view_shortRecord]
    exact Scratch.filled_memcpy _ _
  have hopen : (atMidnight.view (atMidnight.log (.create 3) shortRecord)).isOpen = true := by
    rw [view_shortRecord]
    rfl
  rw [← hheld]
  refine Outlet.Driver.calls_flush hopen ?_
  rw [hheld]
  decide

/-- A record is in the buffer when the disk is full and the sink is destroyed. -/
theorem flush_loses_bytes : ¬∀ results : ℕ → Option ℕ,
    (∀ localtime s es, (FileSink.driver localtime).Conserves results s es)
    ∧ (∀ s es, JsonLinesSink.driver.Conserves results s es)
    ∧ (∀ ansi s es, (StdoutSink.driver ansi).Conserves results s es) := by
  intro hall
  have hwhole := Outlet.Driver.conserves_iff.mp
    ((hall fun _ => none).1 (fun _ => ⟨0, 0, 0⟩) (.create 3) [.log FileSink.shortRecord, .flush])
  have hle := hwhole _ (List.mem_append_right _ (List.mem_append_left _
    (FileSink.flushesOf_shortRecord ▸ List.mem_singleton_self _)))
  revert hle
  decide

end Femtolog
