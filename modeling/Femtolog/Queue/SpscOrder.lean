import Femtolog.Queue.SpscRun
import Femtolog.Queue.SpscWeak

/-!
# Queue/SpscOrder — what the threads of `SpscQueue` know under its memory orders

Three parts of an invariant, and what each step does to them: the state of the queue, which loads of
old stores cannot spoil (`SpscSystem.Sound`); the positions the consumer has handed back to the
producer (`WeakSystem.HandedBack`); the positions the producer has published to the consumer
(`WeakSystem.Published`).
-/

namespace Femtolog

/-! ## Calls that succeed -/

/-- The call has returned `kOk`. -/
def Succeeded : Call × Reply → Bool
  | (_, .status .kOk _) => true
  | _ => false

/-- A call that fails moves nothing. -/
theorem moved_nil_of_not_succeeded {e : Call × Reply} (h : Succeeded e = false) :
    Stream.pushedBy e = [] ∧ Stream.poppedBy e = [] := by
  obtain ⟨call, reply⟩ := e
  cases reply with
  | status status bytes =>
    cases status with
    | kOk => cases h
    | _ => cases call <;> exact ⟨rfl, rfl⟩
  | flag _ | count _ => cases call <;> exact ⟨rfl, rfl⟩

theorem succeeded_of_ne {status : QueueStatus} (h : status ≠ .kOk) (call : Call)
    (bytes : List Byte) : Succeeded (call, .status status bytes) = false := by
  cases status with
  | kOk => exact absurd rfl h
  | _ => rfl

namespace SpscSystem

/-- How much of its bytes the producer has copied. -/
def inFlight (b : SpscSystem) : ℕ :=
  match b.producer with
  | .inside call (.copy _ _ _ rest) _ => call.data.length - rest.length
  | _ => 0

theorem inFlight_of_copy {b : SpscSystem} {call : Call} {r : EnqueueRequest} {tail : Size}
    {segs : List (ℕ × ℕ)} {rest : List Byte} {touched : Bool}
    (h : b.producer = .inside call (.copy r tail segs rest) touched) :
    b.inFlight = call.data.length - rest.length := by rw [inFlight, h]

theorem inFlight_eq_length {b : SpscSystem} {call : Call} {r : EnqueueRequest} {tail : Size}
    {segs : List (ℕ × ℕ)} {done rest : List Byte} {touched : Bool}
    (h : b.producer = .inside call (.copy r tail segs rest) touched)
    (hdata : call.data = done ++ rest) : b.inFlight = done.length := by
  rw [inFlight_of_copy h, hdata, List.length_append, Nat.add_sub_cancel]

/-- Nothing is copied yet. -/
theorem inFlight_start {b : SpscSystem} {q : SpscQueue} {call : Call} {r : EnqueueRequest}
    (hr : r.Brings call.data) (tail : Size) (segs : List (ℕ × ℕ)) (touched : Bool) :
    (b.producerGoes call touched q (.goto (.copy r tail segs r.data))).inFlight = 0 := by
  rw [inFlight_of_copy rfl, hr.data_eq, Nat.sub_self]

/-! ## What the loads cannot spoil

The invariant of the interleavings, for loads that may be old: the calls that succeeded are
explained by the stream. -/

/-- **The queue is sound.** -/
structure Sound (k : ℕ) (stream : List Byte) (H : ℕ) (b : SpscSystem) : Prop where
  explained : Explains (Stream.machine (2 ^ k)) [] (b.history.filter Succeeded) (stream.drop H)
  enqueued_eq : b.enqueued = stream
  dequeued_length : b.dequeued.length = H
  indexed : b.queue.Indexed k H stream.length
  producer : ProducerAt b.queue k stream H b.producer
  consumer : ConsumerAt b.queue k stream H b.consumer

namespace Sound

variable {b : SpscSystem} {q : SpscQueue} {k H : ℕ} {stream : List Byte} {call : Call}
  {touched : Bool} {reply : Reply}

/-- A step inside an enqueue. -/
theorem producer_goto (h : Sound k stream H b) {pc : ProducerPc}
    (hi : q.Indexed k H stream.length) (hhead : q.headIdx = b.queue.headIdx)
    (hsnap : q.tailCachedSnapshot = b.queue.tailCachedSnapshot)
    (hat : ProducerAt q k stream H (.inside call pc touched)) :
    Sound k stream H (b.producerGoes call touched q (.goto pc)) := by
  have hhist : (b.producerGoes call touched q (.goto pc)).history = b.history :=
    congrArg (List.map Return.entry) (List.append_nil b.returned)
  have hcons := h.consumer.frame hhead hsnap []
  rw [List.append_nil] at hcons
  refine ⟨hhist ▸ h.explained, ?_, ?_, hi, hat, hcons⟩
  · rw [enqueued, hhist]
    exact h.enqueued_eq
  · rw [dequeued, hhist]
    exact h.dequeued_length

/-- **The return of an enqueue** that has put `data` into the stream, or failed. -/
theorem producer_ret (h : Sound k stream H b) {data : List Byte}
    (hans : Succeeded (call, reply) = true →
      Stream.answer (2 ^ k) (stream.drop H) call = (reply, (stream ++ data).drop H))
    (hfail : Succeeded (call, reply) = false → data = [])
    (hpush : Stream.pushedBy (call, reply) = data) (hpop : Stream.poppedBy (call, reply) = [])
    (hi : q.Indexed k H (stream ++ data).length) (hhead : q.headIdx = b.queue.headIdx)
    (hsnap : q.tailCachedSnapshot = b.queue.tailCachedSnapshot)
    (hkeep : Keeps q.buffer k (stream ++ data) H) :
    Sound k (stream ++ data) H (b.producerGoes call touched q (.ret reply)) := by
  have hhist : (b.producerGoes call touched q (.ret reply)).history
      = b.history ++ [(call, reply)] := List.map_append
  refine ⟨?_, ?_, ?_, hi, .idle hkeep, h.consumer.frame hhead hsnap data⟩
  · rw [hhist, List.filter_append]
    cases hs : Succeeded (call, reply) with
    | true =>
      rw [List.filter_cons_of_pos hs]
      exact h.explained.snoc (congrArg some (hans hs))
    | false =>
      rw [List.filter_cons_of_neg (by simp [hs]), hfail hs, List.append_nil]
      exact (List.append_nil (b.history.filter Succeeded)).symm ▸ h.explained
  · rw [enqueued, hhist, Stream.pushed_snoc, hpush]
    exact congrArg (· ++ data) h.enqueued_eq
  · rw [dequeued, hhist, Stream.popped_snoc, hpop, List.append_nil]
    exact h.dequeued_length

/-- An enqueue that fails leaves the stream. -/
theorem producer_fails (h : Sound k stream H b) {status : QueueStatus} (hne : status ≠ .kOk)
    (hi : q.Indexed k H stream.length) (hhead : q.headIdx = b.queue.headIdx)
    (hsnap : q.tailCachedSnapshot = b.queue.tailCachedSnapshot)
    (hkeep : Keeps q.buffer k stream H) :
    Sound k stream H (b.producerGoes call touched q (.ret (.status status []))) := by
  have hfalse := succeeded_of_ne hne call []
  obtain ⟨hpush, hpop⟩ := moved_nil_of_not_succeeded hfalse
  have hret : Sound k (stream ++ []) H
      (b.producerGoes call touched q (.ret (.status status []))) :=
    h.producer_ret (fun hs => absurd hs (by simp [hfalse])) (fun _ => rfl) hpush hpop
      (by rwa [List.append_nil]) hhead hsnap (by rwa [List.append_nil])
  rwa [List.append_nil] at hret

/-- Every run is copied: the store of the tail makes the bytes part of the stream. -/
theorem producer_stores (h : Sound k stream H b) {r : EnqueueRequest} (hcall : call.IsEnqueue)
    (hr : r.Brings call.data)
    (hroom : b.queue.HeadSnapshot k H (stream.length + call.data.length))
    (hkeep : Keeps b.queue.buffer k (stream ++ call.data) H) :
    Sound k (stream ++ call.data) H (b.producerGoes call touched
      { b.queue with
        tailIdx := b.queue.tailIdx + r.total
        tailCached := b.queue.tailIdx + r.total } (.ret (.status .kOk []))) := by
  have hi := h.indexed
  have hocc : (stream.drop H).length = stream.length - H := List.length_drop
  have hle := hi.head_le
  obtain ⟨p, hp, hT, _⟩ := id hroom
  obtain ⟨hpush, hpop⟩ := pushedBy_of_isEnqueue hcall []
  refine h.producer_ret (fun _ => ?_) nofun hpush hpop ?_ rfl rfl hkeep
  · rw [answer_of_isEnqueue hcall, Stream.enqueue_of_le hr.ne_nil (by omega),
      List.drop_append_of_le_length hle]
  · have := hi.advanceTail hroom b.queue.buffer
    rwa [← hi.tail_eq, ← hr.total_eq, ← List.length_append] at this

/-- A step inside a dequeue or a peek. -/
theorem consumer_goto (h : Sound k stream H b) {pc : ConsumerPc}
    (hi : q.Indexed k H stream.length) (hbuffer : q.buffer = b.queue.buffer)
    (htail : q.tailIdx = b.queue.tailIdx)
    (hsnap : q.headCachedSnapshot = b.queue.headCachedSnapshot)
    (hat : ConsumerAt q k stream H (.inside call pc touched)) :
    Sound k stream H (b.consumerGoes call touched q (.goto pc)) := by
  have hhist : (b.consumerGoes call touched q (.goto pc)).history = b.history :=
    congrArg (List.map Return.entry) (List.append_nil b.returned)
  refine ⟨hhist ▸ h.explained, ?_, ?_, hi, h.producer.frame hbuffer htail hsnap (le_refl H), hat⟩
  · rw [enqueued, hhist]
    exact h.enqueued_eq
  · rw [dequeued, hhist]
    exact h.dequeued_length

/-- **The return of a dequeue or a peek** that has taken `n` bytes, or failed. -/
theorem consumer_ret (h : Sound k stream H b) {n : ℕ}
    (hans : Succeeded (call, reply) = true →
      Stream.answer (2 ^ k) (stream.drop H) call = (reply, stream.drop (H + n)))
    (hfail : Succeeded (call, reply) = false → n = 0)
    (hpush : Stream.pushedBy (call, reply) = []) (hpop : (Stream.poppedBy (call, reply)).length = n)
    (hi : q.Indexed k (H + n) stream.length) (hbuffer : q.buffer = b.queue.buffer)
    (htail : q.tailIdx = b.queue.tailIdx)
    (hsnap : q.headCachedSnapshot = b.queue.headCachedSnapshot) :
    Sound k stream (H + n) (b.consumerGoes call touched q (.ret reply)) := by
  have hhist : (b.consumerGoes call touched q (.ret reply)).history
      = b.history ++ [(call, reply)] := List.map_append
  refine ⟨?_, ?_, ?_, hi, h.producer.frame hbuffer htail hsnap (Nat.le_add_right H n), .idle⟩
  · rw [hhist, List.filter_append]
    cases hs : Succeeded (call, reply) with
    | true =>
      rw [List.filter_cons_of_pos hs]
      exact h.explained.snoc (congrArg some (hans hs))
    | false =>
      rw [List.filter_cons_of_neg (by simp [hs]), hfail hs]
      exact (List.append_nil (b.history.filter Succeeded)).symm ▸ h.explained
  · rw [enqueued, hhist, Stream.pushed_snoc, hpush, List.append_nil]
    exact h.enqueued_eq
  · rw [dequeued, hhist, Stream.popped_snoc, List.length_append, hpop]
    exact congrArg (· + n) h.dequeued_length

/-- A dequeue or a peek that fails leaves the stream. -/
theorem consumer_fails (h : Sound k stream H b) {status : QueueStatus} (hne : status ≠ .kOk)
    (hi : q.Indexed k H stream.length) (hbuffer : q.buffer = b.queue.buffer)
    (htail : q.tailIdx = b.queue.tailIdx)
    (hsnap : q.headCachedSnapshot = b.queue.headCachedSnapshot) :
    Sound k stream H (b.consumerGoes call touched q (.ret (.status status []))) := by
  have hfalse := succeeded_of_ne hne call []
  obtain ⟨hpush, hpop⟩ := moved_nil_of_not_succeeded hfalse
  exact h.consumer_ret (n := 0) (fun hs => absurd hs (by simp [hfalse])) (fun _ => rfl) hpush
    (by rw [hpop, List.length_nil]) hi hbuffer htail hsnap

/-- Every run is copied: the store of the head takes the bytes out of the stream. -/
theorem consumer_stores (h : Sound k stream H b) {r : DequeueRequest} (hcall : call.IsDequeue)
    (hr : r.Takes call.asked) (hdata : b.queue.TailSnapshot (H + call.asked) stream.length) :
    Sound k stream (H + call.asked) (b.consumerGoes call touched
      { b.queue with
        headIdx := b.queue.headIdx + r.total
        headCached := b.queue.headIdx + r.total }
      (.ret (.status .kOk ((stream.drop H).take call.asked)))) := by
  have hi := h.indexed
  have hocc : (stream.drop H).length = stream.length - H := List.length_drop
  obtain ⟨p, hp, hpT, _⟩ := id hdata
  obtain ⟨hpush, hpop⟩ := poppedBy_of_isDequeue hcall ((stream.drop H).take call.asked)
  refine h.consumer_ret (fun _ => ?_) nofun hpush ?_ ?_ rfl rfl rfl
  · rw [answer_of_isDequeue hcall, Stream.peek_of_le hr.ne_zero (by omega),
      Stream.rest_of_le (by omega), List.drop_drop]
  · rw [hpop, List.length_take]
    omega
  · have := hi.advanceHead hdata
    rwa [← hi.head_eq, ← hr.total_eq] at this

/-- A peek that has copied everything returns the next bytes. -/
theorem consumer_peeks (h : Sound k stream H b) {n : Size} (hn : n.toNat ≠ 0)
    (hdata : H + n.toNat ≤ stream.length) :
    Sound k stream H (b.consumerGoes (.peekBytes n) touched b.queue
      (.ret (.status .kOk ((stream.drop H).take n.toNat)))) := by
  have hocc : (stream.drop H).length = stream.length - H := List.length_drop
  refine h.consumer_ret (n := 0) (fun _ => ?_) nofun rfl rfl h.indexed rfl rfl rfl
  rw [Stream.answer, Stream.peek_of_le hn (by omega)]
  rfl

end Sound

end SpscSystem

namespace WeakSystem

/-- What the producer's thread has stored with release. -/
def releases (s : WeakSystem) : List (Stored Side Size) := s.tails ++ s.flags.map Prod.fst

/-! ## What is handed back, what is published -/

/-- **What the consumer hands back**: its stores name positions of the stream up to `H`, the
producer's snapshot is one of them, and the bytes were read before they were handed back. -/
structure HandedBack (k T H : ℕ) (snapshot : Size) (s : WeakSystem) : Prop where
  heads : Rising (BitVec.ofNat 64) .consumer s.heads H (s.timeline.clock .consumer .consumer)
  acquired : Acquired s.heads s.headSeen snapshot .consumer (s.timeline.clock .producer) (T - 2 ^ k)
  reads : Trail (2 ^ k) .consumer s.timeline s.heads T

/-- **What the producer publishes**: its stores name positions of the stream up to `T`, the consumer
has acquired those up to its reach, its snapshot is one of them, and the bytes up to `W` were
written before they were published. -/
structure Published (k T H W : ℕ) (snapshot : Size) (s : WeakSystem) : Prop where
  tails : Rising (BitVec.ofNat 64) .producer s.tails T (s.timeline.clock .producer .producer)
  nested : Nested .producer s.releases T (s.timeline.clock .producer .producer)
  latest : ∃ m, s.tails[s.tails.length - 1]? = some m ∧ m.position = T
  flagged : ∀ m last, (m, last) ∈ s.flags →
    ∃ m', s.tails[last]? = some m' ∧ m'.position = m.position
  observed : ∃ m last, s.flags[s.flagSeen]? = some (m, last) ∧ last ≤ s.tailSeen
  shown : ∃ p m, snapshot = BitVec.ofNat 64 p ∧ H ≤ p ∧ p ≤ s.reach
    ∧ s.tails[s.tailSeen]? = some m ∧ p ≤ m.position
  reached : ∃ m ∈ s.releases, s.timeline.clock .consumer .producer = m.clock .producer
    ∧ s.reach = m.position
  writes : Trail (2 ^ k) .producer s.timeline s.releases W
  written : Written (2 ^ k) .producer s.timeline s.releases W

namespace HandedBack

variable {s : WeakSystem} {k T H i : ℕ} {snapshot : Size} {m : Stored Side Size}

/-- **A store to the head that the producer may load** names a position the head has had, no further
back than one capacity. -/
theorem loads (h : HandedBack k T H snapshot s) (hm : s.heads[i]? = some m)
    (hseen : s.headSeen ≤ i) :
    m.value = BitVec.ofNat 64 m.position ∧ m.position ≤ H ∧ T ≤ m.position + 2 ^ k := by
  obtain ⟨j, m', hj, hm', -, -, hlow⟩ := h.acquired
  have hmem : m ∈ s.heads := List.mem_of_getElem? hm
  have hle := (h.heads.le_of_le hm' hm (hj.trans hseen)).1
  exact ⟨h.heads.value_eq m hmem, (h.heads.le_last m hmem).1, by omega⟩

/-- The store the snapshot holds, by the position it names. -/
theorem acquired_of_eq (h : HandedBack k T H snapshot s) {p low : ℕ} (hk : k < 64) (hH : H ≤ T)
    (hp : p ≤ H) (hlow : T ≤ p + 2 ^ k) (hle : low ≤ p) (hvalue : snapshot = BitVec.ofNat 64 p) :
    Acquired s.heads s.headSeen snapshot .consumer (s.timeline.clock .producer) low := by
  have hpow : 2 ^ k < 2 ^ 64 := Nat.pow_lt_pow_right (by norm_num) hk
  obtain ⟨j, m', hj, hm', hmvalue, hclock, hmlow⟩ := h.acquired
  have hmem : m' ∈ s.heads := List.mem_of_getElem? hm'
  have hlast := (h.heads.le_last m' hmem).1
  have hsame : BitVec.ofNat 64 m'.position = BitVec.ofNat 64 p := by
    rw [← h.heads.value_eq m' hmem, hmvalue, hvalue]
  refine ⟨j, m', hj, hm', hmvalue, hclock, hle.trans ?_⟩
  rcases Nat.le_total p m'.position with hpm | hmp
  · exact hpm
  · exact (eq_of_ofNat_eq hmp (by omega) hsame).ge

/-- The producer refreshes its snapshot by an acquire load. -/
theorem acquire (h : HandedBack k T H snapshot s) (hm : s.heads[i]? = some m)
    (hseen : s.headSeen ≤ i) (b : SpscSystem) : HandedBack k T H m.value { s with
      headSeen := i
      timeline := s.timeline.acquire .producer m.clock
      base := b } := by
  have hconsumer : (s.timeline.acquire .producer m.clock).clock .consumer
      = s.timeline.clock .consumer := Timeline.clock_acquire_of_ne (by decide) m.clock
  obtain ⟨-, -, hroom⟩ := h.loads hm hseen
  refine ⟨hconsumer ▸ h.heads, ⟨i, m, le_refl i, hm, rfl, ?_, by omega⟩, h.reads.acquire _ _⟩
  rw [Timeline.clock_acquire_self]
  exact le_max_right _ _

/-- An access of the producer. -/
theorem access_producer (h : HandedBack k T H snapshot s) (off len : ℕ) (b : SpscSystem) :
    HandedBack k T H snapshot
      { s with timeline := s.timeline.access .producer true off len, base := b } := by
  have hnews (t : Side) : (s.timeline.access .producer true off len).clock t .consumer
      = s.timeline.clock t .consumer := Timeline.clock_access_of_ne (by decide) _ _ _
  refine ⟨?_, ?_, h.reads.access_of_ne (by decide) true off len⟩
  · rw [hnews]
    exact h.heads
  · have := h.acquired.mono (le_refl s.headSeen) (hnews .producer).ge []
    rwa [List.append_nil] at this

/-- An access of the consumer, to positions that are not handed back. -/
theorem access_consumer (h : HandedBack k T H snapshot s) {p off len : ℕ} (hlo : H ≤ p)
    (hat : off = p % 2 ^ k ∧ p % 2 ^ k + len ≤ 2 ^ k) (hle : p + len ≤ T) (b : SpscSystem) :
    HandedBack k T H snapshot
      { s with timeline := s.timeline.access .consumer false off len, base := b } := by
  have hnone : (s.timeline.access .consumer false off len).clock .producer
      = s.timeline.clock .producer := by simp [Timeline.access]
  refine ⟨h.heads.mono (le_refl _) (Timeline.clock_le_access _ _ _ _), ?_,
    h.reads.access hat hle fun m hm => (h.heads.le_last m hm).1.trans hlo⟩
  rw [hnone]
  exact h.acquired

/-- The consumer's thread acquires: its own positions are as before. -/
theorem acquire_consumer (h : HandedBack k T H snapshot s) (clock : Clock Side)
    (tailSeen flagSeen reach : ℕ) (b : SpscSystem) : HandedBack k T H snapshot { s with
      tailSeen := tailSeen
      flagSeen := flagSeen
      reach := reach
      timeline := s.timeline.acquire .consumer clock
      base := b } := by
  have hproducer : (s.timeline.acquire .consumer clock).clock .producer
      = s.timeline.clock .producer := Timeline.clock_acquire_of_ne (by decide) clock
  refine ⟨h.heads.mono (le_refl _) (Timeline.clock_le_acquire _ _), ?_, h.reads.acquire _ _⟩
  rw [hproducer]
  exact h.acquired

/-- The release fence and the store of the head. -/
theorem release (h : HandedBack k T H snapshot s) {H' : ℕ} {value : Size} (hH : H ≤ H')
    (hvalue : value = BitVec.ofNat 64 H') (b : SpscSystem) : HandedBack k T H' snapshot { s with
      heads := s.heads ++ [⟨value, s.timeline.clock .consumer, H'⟩]
      base := b } := by
  refine ⟨h.heads.snoc hvalue hH rfl, h.acquired.mono (le_refl _) (le_refl _) _,
    h.reads.release (m := ⟨value, s.timeline.clock .consumer, H'⟩) (fun m' hm' => ?_) rfl⟩
  rwa [List.mem_append, List.mem_singleton] at hm'

end HandedBack

namespace Published

variable {s : WeakSystem} {k T H W i : ℕ} {snapshot : Size} {m : Stored Side Size}

/-- **A store to the tail that the consumer may load** names a position the tail has had, not before
what the snapshot shows. -/
theorem loads (h : Published k T H W snapshot s) (hm : s.tails[i]? = some m)
    (hseen : s.tailSeen ≤ i) :
    m.value = BitVec.ofNat 64 m.position ∧ H ≤ m.position ∧ m.position ≤ T := by
  obtain ⟨p, m', -, hp, -, hm', hle⟩ := h.shown
  have hmem : m ∈ s.tails := List.mem_of_getElem? hm
  have hup := (h.tails.le_of_le hm' hm hseen).1
  exact ⟨h.tails.value_eq m hmem, by omega, (h.tails.le_last m hmem).1⟩

/-- **…and not before the flag it has seen.** -/
theorem flag_le (h : Published k T H W snapshot s) (hm : s.tails[i]? = some m)
    (hseen : s.tailSeen ≤ i) {f : Stored Side Size} {last : ℕ}
    (hf : s.flags[s.flagSeen]? = some (f, last)) : f.position ≤ m.position := by
  obtain ⟨f', last', hf', hlast⟩ := h.observed
  obtain ⟨rfl, rfl⟩ := Prod.mk.inj (Option.some.inj (hf.symm.trans hf'))
  obtain ⟨m', hm', hpos⟩ := h.flagged f last (List.mem_of_getElem? hf)
  rw [← hpos]
  exact (h.tails.le_of_le hm' hm (hlast.trans hseen)).1

theorem mem_of_tail (hm : s.tails[i]? = some m) : m ∈ s.releases :=
  List.mem_append_left _ (List.mem_of_getElem? hm)

theorem reach_le (h : Published k T H W snapshot s) : s.reach ≤ T := by
  obtain ⟨m, hm, -, hreach⟩ := h.reached
  exact hreach ▸ (h.nested.le_last m hm).1

/-- What the snapshot shows is acquired. -/
theorem le_reach (h : Published k T H W snapshot s) {p : ℕ} (hk : k < 64) (hT : T ≤ H + 2 ^ k)
    (hpT : p ≤ T) (hvalue : snapshot = BitVec.ofNat 64 p) : p ≤ s.reach := by
  have hpow : 2 ^ k < 2 ^ 64 := Nat.pow_lt_pow_right (by norm_num) hk
  obtain ⟨p', m', hvalue', hp', hreach, -, -⟩ := h.shown
  have hle := h.reach_le
  have hsame : BitVec.ofNat 64 p = BitVec.ofNat 64 p' := hvalue.symm.trans hvalue'
  rcases Nat.le_total p p' with hpp | hpp
  · exact hpp.trans hreach
  · exact (eq_of_ofNat_eq hpp (by omega) hsame.symm) ▸ hreach

/-- **The consumer's thread acquires a release store** of the producer's. -/
theorem acquire (h : Published k T H W snapshot s) (hm : m ∈ s.releases) {snapshot' : Size}
    {tailSeen flagSeen : ℕ}
    (hobserved : ∃ m last, s.flags[flagSeen]? = some (m, last) ∧ last ≤ tailSeen)
    (hshown : ∃ p m', snapshot' = BitVec.ofNat 64 p ∧ H ≤ p ∧ p ≤ max s.reach m.position
      ∧ s.tails[tailSeen]? = some m' ∧ p ≤ m'.position) (b : SpscSystem) :
    Published k T H W snapshot' { s with
      tailSeen := tailSeen
      flagSeen := flagSeen
      reach := max s.reach m.position
      timeline := s.timeline.acquire .consumer m.clock
      base := b } := by
  have hproducer : (s.timeline.acquire .consumer m.clock).clock .producer
      = s.timeline.clock .producer := Timeline.clock_acquire_of_ne (by decide) m.clock
  obtain ⟨m₀, hm₀, hclock, hreach⟩ := h.reached
  obtain ⟨m', hm', hmax, hpos⟩ := h.nested.max_mem hm₀ hm
  refine ⟨hproducer ▸ h.tails, hproducer ▸ h.nested, h.latest, h.flagged, hobserved, hshown,
    ⟨m', hm', ?_, ?_⟩, h.writes.acquire _ _, h.written⟩
  · rw [Timeline.clock_acquire_self, hclock, hmax]
  · rw [hreach, hpos]

/-- The producer's thread acquires: its own positions are as before. -/
theorem acquire_producer (h : Published k T H W snapshot s) (clock : Clock Side) (headSeen : ℕ)
    (b : SpscSystem) : Published k T H W snapshot { s with
      headSeen := headSeen
      timeline := s.timeline.acquire .producer clock
      base := b } := by
  have hconsumer : (s.timeline.acquire .producer clock).clock .consumer
      = s.timeline.clock .consumer := Timeline.clock_acquire_of_ne (by decide) clock
  have hle : s.timeline.clock .producer .producer
      ≤ (s.timeline.acquire .producer clock).clock .producer .producer :=
    Timeline.clock_le_acquire _ _
  refine ⟨h.tails.mono (le_refl _) hle, h.nested.mono (le_refl _) hle, h.latest, h.flagged,
    h.observed, h.shown, ?_, h.writes.acquire _ _, h.written⟩
  rw [hconsumer]
  exact h.reached

/-- A relaxed load of the tail acquires nothing. -/
theorem see (h : Published k T H W snapshot s) (hm : s.tails[i]? = some m) (hseen : s.tailSeen ≤ i)
    (b : SpscSystem) : Published k T H W snapshot { s with tailSeen := i, base := b } := by
  obtain ⟨f, last, hf, hlast⟩ := h.observed
  obtain ⟨p, m', hvalue, hp, hreach, hm', hle⟩ := h.shown
  exact
    { h with
      observed := ⟨f, last, hf, hlast.trans hseen⟩
      shown := ⟨p, m, hvalue, hp, hreach, hm, hle.trans (h.tails.le_of_le hm' hm hseen).1⟩ }

/-- An access of the consumer. -/
theorem access_consumer (h : Published k T H W snapshot s) (off len : ℕ) (b : SpscSystem) :
    Published k T H W snapshot
      { s with timeline := s.timeline.access .consumer false off len, base := b } := by
  have hnews (t : Side) : (s.timeline.access .consumer false off len).clock t .producer
      = s.timeline.clock t .producer := Timeline.clock_access_of_ne (by decide) _ _ _
  refine ⟨?_, ?_, h.latest, h.flagged, h.observed, h.shown, ?_,
    h.writes.access_of_ne (by decide) false off len, h.written.access_of_any _ false off len⟩
  · rw [hnews]
    exact h.tails
  · rw [hnews]
    exact h.nested
  · rw [hnews]
    exact h.reached

/-- An access of the producer, to the next positions. -/
theorem access_producer (h : Published k T H W snapshot s) {off len : ℕ} (hT : T ≤ W)
    (hat : off = W % 2 ^ k ∧ W % 2 ^ k + len ≤ 2 ^ k) (b : SpscSystem) :
    Published k T H (W + len) snapshot
      { s with timeline := s.timeline.access .producer true off len, base := b } := by
  have hle : s.timeline.clock .producer .producer
      ≤ (s.timeline.access .producer true off len).clock .producer .producer :=
    Timeline.clock_le_access _ _ _ _
  have hnone : (s.timeline.access .producer true off len).clock .consumer
      = s.timeline.clock .consumer := by simp [Timeline.access]
  refine ⟨h.tails.mono (le_refl _) hle, h.nested.mono (le_refl _) hle, h.latest, h.flagged,
    h.observed, h.shown, ?_, ?_, h.written.access hat fun m hm => (h.nested.le_last m hm).2⟩
  · rw [hnone]
    exact h.reached
  · exact (h.writes.mono (Nat.le_add_right W len)).access hat (le_refl _) fun m hm =>
      (h.nested.le_last m hm).1.trans hT

/-- **The release fence and the store of the tail**, once everything is written. -/
theorem release (h : Published k T H W snapshot s) {value : Size} (hT : T ≤ W)
    (hvalue : value = BitVec.ofNat 64 W) (b : SpscSystem) : Published k W H W snapshot { s with
      tails := s.tails ++ [⟨value, s.timeline.clock .producer, W⟩]
      base := b } := by
  have hsub : ∀ m' ∈ (s.tails ++ [⟨value, s.timeline.clock .producer, W⟩])
      ++ s.flags.map Prod.fst, m' ∈ s.releases ∨ m' = ⟨value, s.timeline.clock .producer, W⟩ := by
    simp only [releases, List.mem_append, List.mem_singleton]
    tauto
  have hold {j : ℕ} {m' : Stored Side Size} (hm' : s.tails[j]? = some m') :
      (s.tails ++ [⟨value, s.timeline.clock .producer, W⟩])[j]? = some m' := by
    obtain ⟨hlt, -⟩ := List.getElem?_eq_some_iff.mp hm'
    exact (List.getElem?_append_left hlt).trans hm'
  obtain ⟨p, m', hvalue', hp, hreach, hm', hle⟩ := h.shown
  obtain ⟨m₀, hm₀, hreached⟩ := h.reached
  refine ⟨h.tails.snoc hvalue hT rfl, h.nested.release hsub hT rfl,
    ⟨⟨value, s.timeline.clock .producer, W⟩, ?_, rfl⟩,
    fun f last hf => ?_, h.observed, ⟨p, m', hvalue', hp, hreach, hold hm', hle⟩,
    ⟨m₀, ?_, hreached⟩, h.writes.release hsub rfl, h.written.release hsub (le_refl W)⟩
  · rw [List.length_append, List.length_singleton, Nat.add_sub_cancel,
      List.getElem?_append_right (le_refl _), Nat.sub_self]
    rfl
  · obtain ⟨m'', hm'', hpos⟩ := h.flagged f last hf
    exact ⟨m'', hold hm'', hpos⟩
  · rcases List.mem_append.mp hm₀ with hm₀ | hm₀
    · exact List.mem_append_left _ (List.mem_append_left _ hm₀)
    · exact List.mem_append_right _ hm₀

/-- **A release store of the flag**, between two calls. -/
theorem raise (h : Published k T H T snapshot s) (value : Size) :
    Published k T H T snapshot { s with
      flags := s.flags ++ [(⟨value, s.timeline.clock .producer, T⟩, s.tails.length - 1)] } := by
  have hsub : ∀ m' ∈ s.tails ++ (s.flags
      ++ [((⟨value, s.timeline.clock .producer, T⟩ : Stored Side Size), s.tails.length - 1)]).map
        Prod.fst, m' ∈ s.releases ∨ m' = ⟨value, s.timeline.clock .producer, T⟩ := by
    simp only [releases, List.map_append, List.mem_append, List.map_singleton, List.mem_singleton]
    tauto
  obtain ⟨f, last, hf, hlast⟩ := h.observed
  obtain ⟨m₀, hm₀, hreached⟩ := h.reached
  refine ⟨h.tails, h.nested.release hsub (le_refl T) rfl, h.latest, fun f last hf => ?_,
    ⟨f, last, ?_, hlast⟩, h.shown, ⟨m₀, ?_, hreached⟩, h.writes.release hsub rfl,
    h.written.release hsub (le_refl T)⟩
  · rcases List.mem_append.mp hf with hf | hf
    · exact h.flagged f last hf
    · obtain ⟨rfl, rfl⟩ := Prod.mk.inj (List.mem_singleton.mp hf)
      exact h.latest
  · obtain ⟨hlt, -⟩ := List.getElem?_eq_some_iff.mp hf
    exact (List.getElem?_append_left hlt).trans hf
  · simp only [releases, List.map_append, List.mem_append] at hm₀ ⊢
    tauto

/-- The consumer moves its head, within what its snapshot shows. -/
theorem advance (h : Published k T H W snapshot s) {p H' : ℕ} (hk : k < 64) (hT : T ≤ H + 2 ^ k)
    (hH : H' ≤ p) (hp : H ≤ p) (hpT : p ≤ T) (hvalue : snapshot = BitVec.ofNat 64 p)
    (heads : List (Stored Side Size)) (b : SpscSystem) :
    Published k T H' W snapshot { s with heads := heads, base := b } := by
  have hpow : 2 ^ k < 2 ^ 64 := Nat.pow_lt_pow_right (by norm_num) hk
  obtain ⟨p', m', hvalue', hp', hreach, hm', hle⟩ := h.shown
  have hbound := h.reach_le
  have hsame : BitVec.ofNat 64 p = BitVec.ofNat 64 p' := hvalue.symm.trans hvalue'
  have hpp : p = p' := by
    rcases Nat.le_total p p' with hpp | hpp
    · exact eq_of_ofNat_eq hpp (by omega) hsame
    · exact (eq_of_ofNat_eq hpp (by omega) hsame.symm).symm
  exact { h with shown := ⟨p', m', hvalue', by omega, hreach, hm', hle⟩ }

end Published

end WeakSystem

end Femtolog
