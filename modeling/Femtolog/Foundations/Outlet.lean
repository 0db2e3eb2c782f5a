import Femtolog.Foundations.Scratch

/-!
# Foundations/Outlet — a buffer in front of a descriptor

An `Outlet` copies records to a buffer.  It passes the buffer on when a record finds no room behind
what is in it, and passes a record on as it is when that is longer than the whole buffer.  On a
closed descriptor it passes nothing on, and keeps the buffer as it is.

What has been passed on and what is held in the buffer are the stream of the records
(`stream_logs`); an open outlet stays inside its buffer, a closed one as long as its records do
(`within_logs_iff`).  Nothing looks at how much the descriptor accepts, and what it does not accept
of the buffer is gone (`Driver.conserves_iff`).
-/

namespace Femtolog

/-- A buffer with the position up to which it is filled, and what has been passed to the descriptor
behind it, call by call. -/
@[ext] structure Outlet (α : Type*) where
  capacity : ℕ
  isOpen : Bool
  buffer : Scratch α
  writes : List (List α)

namespace Outlet

/-! ## Records -/

variable {α : Type*}

/-- A record: the room it is taken to need, and its text. -/
structure Record (α : Type*) where
  size : ℕ
  text : List α

/-- Pass the buffer on. -/
def flush (o : Outlet α) : Outlet α :=
  if o.buffer.pos = 0 ∨ o.isOpen = false then o
  else { o with writes := o.writes ++ [o.buffer.filled], buffer := o.buffer.rewind }

/-- Pass the buffer on if a record finds no room in it. -/
def makeRoom (o : Outlet α) (r : Record α) : Outlet α :=
  if o.capacity < o.buffer.pos + r.size then o.flush else o

/-- Take a record: to the buffer, or past it. -/
def take (o : Outlet α) (r : Record α) : Outlet α :=
  if o.capacity < r.size then
    if o.isOpen = false then o else { o with writes := o.writes ++ [r.text] }
  else { o with buffer := o.buffer.memcpy r.text }

/-- A record. -/
def log (o : Outlet α) (r : Record α) : Outlet α := (o.makeRoom r).take r

/-- Records one after the other. -/
def logs (o : Outlet α) (rs : List (Record α)) : Outlet α := rs.foldl log o

variable {o : Outlet α} {r : Record α} {rs : List (Record α)}

/-- A record that finds room is copied behind what is held. -/
theorem log_of_fits (hfits : o.buffer.pos + r.size ≤ o.capacity) :
    o.log r = { o with buffer := o.buffer.memcpy r.text } := by
  have hroom : o.makeRoom r = o := if_neg (Nat.not_lt.mpr hfits)
  rw [log, hroom, take, if_neg (Nat.not_lt.mpr ((Nat.le_add_left _ _).trans hfits))]

theorem flush_closed (hclosed : o.isOpen = false) : o.flush = o := if_pos (.inr hclosed)

@[simp] theorem flush_isOpen (o : Outlet α) : o.flush.isOpen = o.isOpen := by
  rw [flush]
  split_ifs <;> rfl

@[simp] theorem makeRoom_isOpen (o : Outlet α) (r : Record α) :
    (o.makeRoom r).isOpen = o.isOpen := by
  rw [makeRoom]
  split_ifs
  · exact flush_isOpen o
  · rfl

@[simp] theorem log_isOpen (o : Outlet α) (r : Record α) : (o.log r).isOpen = o.isOpen := by
  rw [log, take]
  split_ifs <;> exact makeRoom_isOpen o r

@[simp] theorem flush_capacity (o : Outlet α) : o.flush.capacity = o.capacity := by
  rw [flush]
  split_ifs <;> rfl

@[simp] theorem makeRoom_capacity (o : Outlet α) (r : Record α) :
    (o.makeRoom r).capacity = o.capacity := by
  rw [makeRoom]
  split_ifs
  · exact flush_capacity o
  · rfl

@[simp] theorem log_capacity (o : Outlet α) (r : Record α) : (o.log r).capacity = o.capacity := by
  rw [log, take]
  split_ifs <;> exact makeRoom_capacity o r

/-! ## The stream -/

/-- What has been passed on, and then what is held. -/
def stream (o : Outlet α) : List α := o.writes.flatten ++ o.buffer.filled

theorem flush_buffer (hopen : o.isOpen = true) : o.flush.buffer = o.buffer.rewind := by
  rw [flush]
  split_ifs with hstop
  · rcases hstop with hpos | hclosed
    · exact Scratch.ext rfl hpos
    · rw [hopen] at hclosed
      cases hclosed
  · rfl

/-- **Passing the buffer on** changes nothing about the stream. -/
@[simp] theorem stream_flush (o : Outlet α) : o.flush.stream = o.stream := by
  rw [flush]
  split_ifs
  · rfl
  · simp [stream]

@[simp] theorem stream_makeRoom (o : Outlet α) (r : Record α) :
    (o.makeRoom r).stream = o.stream := by
  rw [makeRoom]
  split_ifs
  · exact stream_flush o
  · rfl

/-- **A record joins the stream at its end**: one that goes past the buffer finds it empty. -/
theorem stream_log (hopen : o.isOpen = true) : (o.log r).stream = o.stream ++ r.text := by
  rw [log, take]
  split_ifs with hlong hclosed
  · rw [makeRoom_isOpen, hopen] at hclosed
    cases hclosed
  · have hroom : o.makeRoom r = o.flush := by
      rw [makeRoom_capacity] at hlong
      exact if_pos (lt_of_lt_of_le hlong (Nat.le_add_left _ _))
    have hempty : o.flush.buffer.filled = [] := by rw [flush_buffer hopen, Scratch.filled_rewind]
    rw [← stream_flush o, hroom]
    simp [stream, hempty]
  · rw [← stream_makeRoom o r]
    simp [stream]

/-- **The stream is the records**, one after the other. -/
theorem stream_logs (hopen : o.isOpen = true) (rs : List (Record α)) :
    (o.logs rs).stream = o.stream ++ (rs.map Record.text).flatten := by
  induction rs generalizing o with
  | nil => exact (List.append_nil _).symm
  | cons r rs ih =>
    have hrest := ih ((log_isOpen o r).trans hopen)
    rw [stream_log hopen, List.append_assoc] at hrest
    exact hrest

/-- After the buffer has been passed on, the whole stream has. -/
theorem writes_flush (hopen : o.isOpen = true) : o.flush.writes.flatten = o.stream := by
  rw [← stream_flush o, stream, flush_buffer hopen, Scratch.filled_rewind, List.append_nil]

/-! ## Whole records -/

/-- The texts that are not empty. -/
def nonempty (texts : List (List α)) : List (List α) := texts.filter fun text => !text.isEmpty

theorem nonempty_append (texts texts' : List (List α)) :
    nonempty (texts ++ texts') = nonempty texts ++ nonempty texts' := List.filter_append ..

theorem flatten_nonempty_singleton (text : List α) : (nonempty [text]).flatten = text := by
  cases text <;> simp [nonempty]

theorem nonempty_nonempty (texts : List (List α)) : nonempty (nonempty texts) = nonempty texts := by
  simp [nonempty]

/-- No text of no length is held. -/
theorem nonempty_eq_nil {texts : List (List α)} (h : (nonempty texts).flatten = []) :
    nonempty texts = [] := by
  rw [List.flatten_eq_nil_iff] at h
  refine List.eq_nil_iff_forall_not_mem.mpr fun text htext => ?_
  have hempty := h text htext
  rw [nonempty, List.mem_filter, hempty] at htext
  cases htext.2

/-- **Every call passes whole records on**, those of `texts` that are not empty: `groups` have been
passed on, and the rest is held. -/
structure Grouped (o : Outlet α) (texts : List (List α)) (groups : List (List (List α))) :
    Prop where
  writes : o.writes = groups.map List.flatten
  held : ∃ held, o.buffer.filled = held.flatten ∧ nonempty texts = groups.flatten ++ held ∧
    nonempty held = held

theorem grouped_start (hwrites : o.writes = []) (hpos : o.buffer.filled = []) :
    o.Grouped [] [] := ⟨hwrites, [], hpos, rfl, rfl⟩

/-- The buffer is passed on as one more group. -/
theorem Grouped.flush {texts : List (List α)} {groups : List (List (List α))}
    (h : o.Grouped texts groups) (hopen : o.isOpen = true) :
    ∃ groups', o.flush.Grouped texts groups' ∧ nonempty texts = groups'.flatten := by
  obtain ⟨held, hfilled, htexts, hheld⟩ := h.held
  have hstop : (o.buffer.pos = 0 ∨ o.isOpen = false) ↔ o.buffer.pos = 0 := by simp [hopen]
  rw [Outlet.flush]
  by_cases hpos : o.buffer.pos = 0
  · have hnil : held = [] := by
      rw [← hheld]
      refine nonempty_eq_nil ?_
      rw [hheld, ← hfilled, Scratch.filled, hpos, List.take_zero]
    rw [if_pos (.inl hpos)]
    refine ⟨groups, h, ?_⟩
    rw [htexts, hnil, List.append_nil]
  · have htexts' : nonempty texts = (groups ++ [held]).flatten := by
      rw [htexts, List.flatten_append, List.flatten_singleton]
    rw [if_neg (hstop.not.mpr hpos)]
    refine ⟨groups ++ [held], ⟨?_, [], rfl, ?_, rfl⟩, htexts'⟩
    · rw [List.map_append, List.map_singleton, h.writes, hfilled]
    · rw [htexts', List.append_nil]

/-- A record joins what is held, or is a group of its own. -/
theorem Grouped.log {texts : List (List α)} {groups : List (List (List α))}
    (h : o.Grouped texts groups) (hopen : o.isOpen = true) (r : Record α) :
    ∃ groups', (o.log r).Grouped (texts ++ [r.text]) groups' := by
  obtain ⟨groups₁, h₁, hflushed⟩ : ∃ groups', (o.makeRoom r).Grouped texts groups' ∧
      (o.capacity < r.size → nonempty texts = groups'.flatten) := by
    rw [makeRoom]
    split_ifs with hfull
    · obtain ⟨groups', h', htexts⟩ := h.flush hopen
      exact ⟨groups', h', fun _ => htexts⟩
    · exact ⟨groups, h, fun hlong => absurd (hlong.trans_le (Nat.le_add_left _ _)) hfull⟩
  have hopen₁ : (o.makeRoom r).isOpen = true := (makeRoom_isOpen o r).trans hopen
  obtain ⟨held, hfilled, htexts, hheld⟩ := h₁.held
  rw [Outlet.log, take, makeRoom_capacity]
  split_ifs with hlong hclosed
  · rw [hopen₁] at hclosed
    cases hclosed
  · have hnil : held = [] := by
      rw [hflushed hlong] at htexts
      exact List.self_eq_append_right.mp htexts
    refine ⟨groups₁ ++ [nonempty [r.text]], ?_, held, hfilled, ?_, hheld⟩
    · rw [List.map_append, List.map_singleton, h₁.writes, flatten_nonempty_singleton]
    · rw [nonempty_append, htexts, hnil]
      simp
  · refine ⟨groups₁, h₁.writes, held ++ nonempty [r.text], ?_, ?_, ?_⟩
    · rw [List.flatten_append, flatten_nonempty_singleton, ← hfilled]
      exact Scratch.filled_memcpy _ _
    · rw [nonempty_append, htexts, List.append_assoc]
    · rw [nonempty_append, hheld, nonempty_nonempty]

/-! ## Bounds -/

/-- Nothing has been written past the end of the buffer, and it is not filled further. -/
def Within (o : Outlet α) : Prop :=
  o.buffer.cells.length = o.capacity ∧ o.buffer.pos ≤ o.capacity

/-- A record that is no longer than the room it is taken to need stays inside an open outlet. -/
theorem within_log (hopen : o.isOpen = true) (hwithin : o.Within) (hsize : r.text.length ≤ r.size) :
    (o.log r).Within := by
  have hroom : (o.makeRoom r).Within
      ∧ (r.size ≤ o.capacity → (o.makeRoom r).buffer.pos + r.size ≤ o.capacity) := by
    rw [makeRoom]
    split_ifs with hfull
    · rw [Within, flush_capacity, flush_buffer hopen]
      exact ⟨⟨hwithin.1, Nat.zero_le _⟩, fun hle => (Nat.zero_add _).trans_le hle⟩
    · exact ⟨hwithin, fun _ => Nat.le_of_not_lt hfull⟩
  rw [log, take]
  split_ifs with hlong hclosed
  · exact hroom.1
  · exact hroom.1
  · rw [makeRoom_capacity] at hlong
    have hend := hroom.2 (Nat.le_of_not_lt hlong)
    have hcells := hroom.1.1
    rw [makeRoom_capacity] at hcells
    refine ⟨?_, ?_⟩
    · change ((o.makeRoom r).buffer.memcpy r.text).cells.length = (o.makeRoom r).capacity
      rw [makeRoom_capacity, ← hcells, Scratch.length_memcpy_eq_iff]
      omega
    · change (o.makeRoom r).buffer.pos + r.text.length ≤ (o.makeRoom r).capacity
      rw [makeRoom_capacity]
      omega

theorem within_logs (hopen : o.isOpen = true) (hwithin : o.Within)
    (hsize : ∀ r ∈ rs, r.text.length ≤ r.size) : (o.logs rs).Within := by
  induction rs generalizing o with
  | nil => exact hwithin
  | cons r rs ih =>
    have hstep := within_log hopen hwithin (hsize r List.mem_cons_self)
    exact ih ((log_isOpen o r).trans hopen) hstep fun r' hr' =>
      hsize r' (List.mem_cons_of_mem r hr')

/-- The text of the records that are no longer than a buffer. -/
def shortText (capacity : ℕ) (rs : List (Record α)) : List α :=
  ((rs.filter fun r => r.size ≤ capacity).map Record.text).flatten

theorem shortText_append (capacity : ℕ) (rs rs' : List (Record α)) :
    shortText capacity (rs ++ rs') = shortText capacity rs ++ shortText capacity rs' := by
  simp [shortText]

theorem length_shortText_take (capacity : ℕ) (rs : List (Record α)) (k : ℕ) :
    (shortText capacity (rs.take k)).length ≤ (shortText capacity rs).length := by
  have hsplit := congrArg List.length (shortText_append capacity (rs.take k) (rs.drop k))
  rw [List.take_append_drop, List.length_append] at hsplit
  omega

theorem length_shortText (capacity : ℕ) (hsize : ∀ r ∈ rs, r.text.length = r.size) :
    (shortText capacity rs).length = ((rs.map Record.size).filter (· ≤ capacity)).sum := by
  rw [shortText, List.length_flatten, List.map_map, List.filter_map, Function.comp_def]
  refine congrArg List.sum (List.map_congr_left fun r hr => ?_)
  exact hsize r (List.mem_of_mem_filter hr)

@[simp] theorem logs_capacity (o : Outlet α) (rs : List (Record α)) :
    (o.logs rs).capacity = o.capacity := by
  induction rs generalizing o with
  | nil => rfl
  | cons r rs ih => exact (ih (o.log r)).trans (log_capacity o r)

@[simp] theorem logs_isOpen (o : Outlet α) (rs : List (Record α)) :
    (o.logs rs).isOpen = o.isOpen := by
  induction rs generalizing o with
  | nil => rfl
  | cons r rs ih => exact (ih (o.log r)).trans (log_isOpen o r)

/-- **A closed outlet fills its buffer with all that is short enough for it.** -/
theorem buffer_logs_closed (hclosed : o.isOpen = false) :
    (o.logs rs).buffer = o.buffer.memcpy (shortText o.capacity rs) := by
  induction rs generalizing o with
  | nil => exact (Scratch.memcpy_nil _).symm
  | cons r rs ih =>
    have hstep : (o.log r).buffer = o.buffer.memcpy (shortText o.capacity [r]) := by
      have hroom : o.makeRoom r = o := by
        rw [makeRoom, flush_closed hclosed, ite_self]
      rw [log, hroom, take]
      split_ifs with hlong
      · simp [shortText, Nat.not_le.mpr hlong]
      · simp [shortText, Nat.le_of_not_lt hlong]
    have hrest := ih ((log_isOpen o r).trans hclosed)
    rw [hstep, log_capacity, Scratch.memcpy_memcpy, ← shortText_append] at hrest
    exact hrest

theorem within_logs_closed_iff (hclosed : o.isOpen = false) (hwithin : o.Within) :
    (o.logs rs).Within ↔ o.buffer.pos + (shortText o.capacity rs).length ≤ o.capacity := by
  rw [Within, logs_capacity, buffer_logs_closed hclosed, Scratch.pos_memcpy]
  refine ⟨fun h => h.2, fun h => ⟨?_, h⟩⟩
  rw [(Scratch.length_memcpy_eq_iff _ _).mpr (hwithin.1.symm ▸ h), hwithin.1]

/-- **An outlet stays inside its buffer** over a sequence of records exactly if it is open, or all
that is short enough for the buffer is so taken together. -/
theorem within_logs_iff (hwithin : o.Within) (hsize : ∀ r ∈ rs, r.text.length ≤ r.size) :
    (∀ k, (o.logs (rs.take k)).Within)
      ↔ o.isOpen = true ∨ o.buffer.pos + (shortText o.capacity rs).length ≤ o.capacity := by
  constructor
  · intro hall
    refine (Bool.eq_false_or_eq_true o.isOpen).imp_right fun hclosed => ?_
    have hend := hall rs.length
    rw [List.take_length] at hend
    exact (within_logs_closed_iff hclosed hwithin).mp hend
  · rintro hfits k
    rcases Bool.eq_false_or_eq_true o.isOpen with hopen | hclosed
    · exact within_logs hopen hwithin fun r hr => hsize r (List.mem_of_mem_take hr)
    · have hle := hfits.resolve_left (by rw [hclosed]; decide)
      have htake := length_shortText_take o.capacity rs k
      exact (within_logs_closed_iff hclosed hwithin).mpr (by omega)

/-- The same for an empty buffer and records that are as long as they are taken to be. -/
theorem within_logs_iff_sum (rs : List (Record α)) (hwithin : o.Within) (hpos : o.buffer.pos = 0)
    (hsize : ∀ r ∈ rs, r.text.length = r.size) :
    (∀ k, (o.logs (rs.take k)).Within)
      ↔ o.isOpen = true ∨ ((rs.map Record.size).filter (· ≤ o.capacity)).sum ≤ o.capacity := by
  rw [within_logs_iff hwithin fun r hr => (hsize r hr).le, hpos, Nat.zero_add,
    length_shortText o.capacity hsize]

/-! ## The two parts of a record -/

/-- Passing the buffer on moves what is held to the descriptor, or leaves it. -/
theorem held_flush (o : Outlet α) :
    (o.flush.writes.drop o.writes.length).flatten ++ o.flush.buffer.filled = o.buffer.filled := by
  rw [flush]
  split_ifs
  · simp
  · simp

theorem held_makeRoom (o : Outlet α) (r : Record α) :
    ((o.makeRoom r).writes.drop o.writes.length).flatten ++ (o.makeRoom r).buffer.filled
      = o.buffer.filled := by
  rw [makeRoom]
  split_ifs
  · exact held_flush o
  · simp

/-- Taking a record appends to what is held. -/
theorem held_take (o : Outlet α) (r : Record α) :
    o.buffer.filled <+: (o.take r).buffer.filled := by
  rw [take]
  split_ifs
  · exact List.prefix_rfl
  · exact List.prefix_rfl
  · exact ⟨r.text, (Scratch.filled_memcpy _ _).symm⟩

/-! ## Sinks -/

variable {σ ρ : Type*}

/-- **A sink that works as an outlet does**: its steps, and the outlet it is seen as, which goes
along with them. -/
structure Driver (σ ρ α : Type*) where
  flush : σ → σ
  makeRoom : σ → ρ → σ
  take : σ → ρ → σ
  view : σ → Outlet α
  record : σ → ρ → Record α
  view_flush : ∀ s, view (flush s) = (view s).flush
  view_makeRoom : ∀ s r, view (makeRoom s r) = (view s).makeRoom (record s r)
  view_take : ∀ s r, view (take s r) = (view s).take (record s r)

/-- What happens to a sink: a record, or an empty buffer is asked for. -/
inductive Event (ρ : Type*)
  | log (r : ρ)
  | flush

namespace Driver

variable (D : Driver σ ρ α)

/-- What is held in the buffer. -/
def held (s : σ) : List α := (D.view s).buffer.filled

/-- A record. -/
def log (s : σ) (r : ρ) : σ := D.take (D.makeRoom s r) r

/-- Records one after the other. -/
def logs (s : σ) (rs : List ρ) : σ := rs.foldl D.log s

/-- **A record is seen as the outlet's**, where what it looks like depends on nothing else. -/
theorem view_log {text : ρ → Record α} (htext : ∀ s, D.record s = text) (s : σ) (r : ρ) :
    D.view (D.log s r) = (D.view s).log (text r) := by
  rw [log, D.view_take, D.view_makeRoom, htext, htext, Outlet.log]

theorem view_logs {text : ρ → Record α} (htext : ∀ s, D.record s = text) (s : σ) (rs : List ρ) :
    D.view (D.logs s rs) = (D.view s).logs (rs.map text) := by
  induction rs generalizing s with
  | nil => rfl
  | cons r rs ih =>
    have hrest := ih (D.log s r)
    rw [D.view_log htext] at hrest
    exact hrest

/-- One event. -/
def step (s : σ) : Event ρ → σ
  | .log r => D.log s r
  | .flush => D.flush s

/-- Events one after the other. -/
def run (s : σ) (es : List (Event ρ)) : σ := es.foldl D.step s

/-! ## What the descriptor accepts -/

/-- The calls of `write` between two states, each with its number. -/
def calls (s s' : σ) : List (List α × ℕ) :=
  ((D.view s').writes.drop (D.view s).writes.length).zipIdx (D.view s).writes.length

/-- The calls that pass the buffer on during an event. -/
def flushesOf (s : σ) : Event ρ → List (List α × ℕ)
  | .log r => D.calls s (D.makeRoom s r)
  | .flush => D.calls s (D.flush s)

/-- What is added to the buffer during an event. -/
def addedBy (s : σ) : Event ρ → List α
  | .log r => (D.held (D.log s r)).drop (D.held (D.makeRoom s r)).length
  | .flush => []

/-- The calls that pass the buffer on. -/
def flushes : σ → List (Event ρ) → List (List α × ℕ)
  | _, [] => []
  | s, e :: es => D.flushesOf s e ++ flushes (D.step s e) es

/-- All that is added to the buffer. -/
def added : σ → List (Event ρ) → List α
  | _, [] => []
  | s, e :: es => D.addedBy s e ++ added (D.step s e) es

/-- What the descriptor accepts of a call: as many cells as the call returns, none where it
fails. -/
def accepted (results : ℕ → Option ℕ) (call : List α × ℕ) : List α :=
  call.1.take ((results call.2).getD 0)

/-- **Nothing that is added to the buffer is lost**: at any time, what the descriptor has accepted
of it and what is held are all of it, in order. -/
def Conserves (results : ℕ → Option ℕ) (s : σ) (es : List (Event ρ)) : Prop :=
  ∀ k, (D.flushes s (es.take k)).flatMap (accepted results) ++ D.held (D.run s (es.take k))
    = D.held s ++ D.added s (es.take k)

variable {D} {s : σ} {es : List (Event ρ)} {results : ℕ → Option ℕ}

theorem map_fst_calls (s s' : σ) :
    (D.calls s s').map Prod.fst = (D.view s').writes.drop (D.view s).writes.length :=
  List.zipIdx_map_fst ..

/-- A buffer that is not empty is passed on in one call. -/
theorem calls_flush (hopen : (D.view s).isOpen = true) (hheld : D.held s ≠ []) :
    D.calls s (D.flush s) = [(D.held s, (D.view s).writes.length)] := by
  have hstop : ¬((D.view s).buffer.pos = 0 ∨ (D.view s).isOpen = false) := by
    rintro (hpos | hclosed)
    · exact hheld (by rw [held, Scratch.filled, hpos, List.take_zero])
    · rw [hopen] at hclosed
      cases hclosed
  rw [calls, D.view_flush, Outlet.flush, if_neg hstop]
  simp [held]

/-- **An event moves cells** from the buffer to the descriptor and adds some. -/
theorem held_step (s : σ) (e : Event ρ) :
    ((D.flushesOf s e).map Prod.fst).flatten ++ D.held (D.step s e)
      = D.held s ++ D.addedBy s e := by
  cases e with
  | log r =>
    have hroom : ((D.flushesOf s (.log r)).map Prod.fst).flatten ++ D.held (D.makeRoom s r)
        = D.held s := by
      rw [flushesOf, map_fst_calls, held, D.view_makeRoom]
      exact held_makeRoom (D.view s) (D.record s r)
    have htake : D.held (D.makeRoom s r) <+: D.held (D.log s r) := by
      rw [held, held, log, D.view_take]
      exact held_take _ _
    rw [← hroom, List.append_assoc]
    exact congrArg _ (List.prefix_iff_eq_append.mp htake).symm
  | flush =>
    rw [flushesOf, map_fst_calls, addedBy, List.append_nil, held, step, D.view_flush]
    exact held_flush (D.view s)

/-- What has been passed on and what is held are all that has been added. -/
theorem held_run (s : σ) (es : List (Event ρ)) :
    ((D.flushes s es).map Prod.fst).flatten ++ D.held (D.run s es) = D.held s ++ D.added s es := by
  induction es generalizing s with
  | nil => exact (List.append_nil _).symm
  | cons e es ih =>
    have hrest := ih (D.step s e)
    have hstep := held_step s e (D := D)
    rw [flushes, added, List.map_append, List.flatten_append, List.append_assoc]
    rw [← List.append_assoc (D.held s), ← hstep, List.append_assoc, ← hrest]
    rfl

theorem flushes_append (s : σ) (es es' : List (Event ρ)) :
    D.flushes s (es ++ es') = D.flushes s es ++ D.flushes (D.run s es) es' := by
  induction es generalizing s with
  | nil => rfl
  | cons e es ih =>
    rw [List.cons_append, flushes, ih, flushes, List.append_assoc]
    rfl

theorem length_accepted_le (results : ℕ → Option ℕ) (calls : List (List α × ℕ)) :
    (calls.flatMap (accepted results)).length ≤ ((calls.map Prod.fst).flatten).length := by
  induction calls with
  | nil => exact le_rfl
  | cons c calls ih =>
    simp only [List.flatMap_cons, List.map_cons, List.flatten_cons, List.length_append, accepted,
      List.length_take]
    omega

/-- The descriptor accepts all of the calls exactly if it accepts all of each. -/
theorem accepted_eq_iff {calls : List (List α × ℕ)} :
    calls.flatMap (accepted results) = (calls.map Prod.fst).flatten
      ↔ ∀ c ∈ calls, c.1.length ≤ (results c.2).getD 0 := by
  induction calls with
  | nil => simp
  | cons c calls ih =>
    have hle := length_accepted_le results calls
    rw [List.forall_mem_cons, ← ih, List.flatMap_cons, List.map_cons, List.flatten_cons, accepted]
    constructor
    · intro heq
      have hlen := congrArg List.length heq
      rw [List.length_append, List.length_append, List.length_take] at hlen
      have hwhole : c.1.length ≤ (results c.2).getD 0 := by omega
      rw [List.take_of_length_le hwhole] at heq
      exact ⟨hwhole, List.append_cancel_left heq⟩
    · rintro ⟨hwhole, hrest⟩
      rw [List.take_of_length_le hwhole, hrest]

/-- **When nothing is lost**: the descriptor accepts all of every buffer that is passed on. -/
theorem conserves_iff :
    D.Conserves results s es ↔ ∀ c ∈ D.flushes s es, c.1.length ≤ (results c.2).getD 0 := by
  constructor
  · intro hall
    have hend := hall es.length
    rw [List.take_length, ← held_run] at hend
    exact accepted_eq_iff.mp (List.append_cancel_right hend)
  · intro hall k
    have hsplit := flushes_append s (es.take k) (es.drop k) (D := D)
    rw [List.take_append_drop] at hsplit
    rw [← held_run, accepted_eq_iff.mpr]
    intro c hc
    exact hall c (hsplit ▸ List.mem_append_left _ hc)

end Driver

end Outlet

end Femtolog
