import Femtolog.Queue.SpscSteps

/-!
# Queue/SpscRun — `SpscQueue` under a producer and a consumer

In every interleaving of the steps of the two threads the calls, in the order in which they return,
answer as a bounded FIFO stream (`SpscSystem.refines_stream`): a call takes effect when it returns.

Between two steps a thread stands at a program counter, and what it knows there — a room it has
found, a part of a copy it has made — stays true under the steps of the other one.
-/

namespace Femtolog

namespace SpscSystem

/-! ## What the threads know -/

section Knowledge

variable (q : SpscQueue) (k : ℕ) (stream : List Byte) (H : ℕ)

/-- **What the producer knows where it stands.**  Between calls the buffer keeps the stream; inside
a copy it keeps the part `done` too, and the snapshot of the head leaves room for the whole. -/
inductive ProducerAt : Thread Call ProducerPc → Prop
  | idle (hkeep : Keeps q.buffer k stream H) : ProducerAt .idle
  | loadTail {call : Call} {r : EnqueueRequest} (hcall : call.IsEnqueue) (hr : r.Brings call.data)
      (hkeep : Keeps q.buffer k stream H) : ProducerAt (.inside call (.loadTail r) false)
  | loadHead {call : Call} {r : EnqueueRequest} (hcall : call.IsEnqueue) (hr : r.Brings call.data)
      (hkeep : Keeps q.buffer k stream H) :
      ProducerAt (.inside call (.loadHead r q.tailIdx) false)
  | copy {call : Call} {r : EnqueueRequest} {segs : List (ℕ × ℕ)} {done rest : List Byte}
      {touched : Bool} (hcall : call.IsEnqueue) (hr : r.Brings call.data)
      (hdata : call.data = done ++ rest)
      (hroom : q.HeadSnapshot k H (stream.length + call.data.length))
      (hcov : Covers (2 ^ k) (stream ++ done).length segs rest.length)
      (hkeep : Keeps q.buffer k (stream ++ done) H) :
      ProducerAt (.inside call (.copy r q.tailIdx segs rest) touched)

/-- **What the consumer knows where it stands.**  Inside a copy the bytes it is after are in the
stream, and it has gathered the first of them. -/
inductive ConsumerAt : Thread Call ConsumerPc → Prop
  | idle : ConsumerAt .idle
  | loadHead {call : Call} {r : DequeueRequest} (hcall : call.IsDequeue)
      (hr : r.Takes call.asked) : ConsumerAt (.inside call (.loadHead r) false)
  | loadTail {call : Call} {r : DequeueRequest} (hcall : call.IsDequeue)
      (hr : r.Takes call.asked) : ConsumerAt (.inside call (.loadTail r q.headIdx) false)
  | copy {call : Call} {r : DequeueRequest} {segs : List (ℕ × ℕ)} {out : List Byte}
      (hcall : call.IsDequeue) (hr : r.Takes call.asked)
      (hdata : q.TailSnapshot (H + call.asked) stream.length)
      (hread : Reading (2 ^ k) stream H call.asked segs out) :
      ConsumerAt (.inside call (.copy r q.headIdx segs out) false)
  | peekLoadHead {n : Size} (hn : n.toNat ≠ 0) :
      ConsumerAt (.inside (.peekBytes n) (.peekLoadHead n) false)
  | peekLoadTail {n : Size} (hn : n.toNat ≠ 0) :
      ConsumerAt (.inside (.peekBytes n) (.peekLoadTail n q.headIdx) false)
  | peekCopy {n : Size} {segs : List (ℕ × ℕ)} {out : List Byte} (hn : n.toNat ≠ 0)
      (hdata : H + n.toNat ≤ stream.length) (hread : Reading (2 ^ k) stream H n.toNat segs out) :
      ConsumerAt (.inside (.peekBytes n) (.peekCopy segs out) false)

end Knowledge

section Frames

variable {q q' : SpscQueue} {k H H' : ℕ} {stream : List Byte}

/-- The consumer's steps leave what the producer knows. -/
theorem ProducerAt.frame {t : Thread Call ProducerPc} (h : ProducerAt q k stream H t)
    (hbuffer : q'.buffer = q.buffer) (htail : q'.tailIdx = q.tailIdx)
    (hsnap : q'.headCachedSnapshot = q.headCachedSnapshot) (hH : H ≤ H') :
    ProducerAt q' k stream H' t := by
  cases h with
  | idle hkeep => exact .idle (hbuffer ▸ hkeep.mono hH)
  | loadTail hcall hr hkeep => exact .loadTail hcall hr (hbuffer ▸ hkeep.mono hH)
  | loadHead hcall hr hkeep =>
    rw [← htail]
    exact .loadHead hcall hr (hbuffer ▸ hkeep.mono hH)
  | copy hcall hr hdata hroom hcov hkeep =>
    obtain ⟨p, h1, h2, h3⟩ := hroom
    rw [← htail]
    exact .copy hcall hr hdata ⟨p, by omega, h2, hsnap.trans h3⟩ hcov (hbuffer ▸ hkeep.mono hH)

/-- The producer's steps leave what the consumer knows. -/
theorem ConsumerAt.frame {t : Thread Call ConsumerPc} (h : ConsumerAt q k stream H t)
    (hhead : q'.headIdx = q.headIdx) (hsnap : q'.tailCachedSnapshot = q.tailCachedSnapshot)
    (more : List Byte) : ConsumerAt q' k (stream ++ more) H t := by
  have hlen : stream.length ≤ (stream ++ more).length := by simp
  cases h with
  | idle => exact .idle
  | loadHead hcall hr => exact .loadHead hcall hr
  | loadTail hcall hr =>
    rw [← hhead]
    exact .loadTail hcall hr
  | copy hcall hr hdata hread =>
    obtain ⟨p, h1, h2, h3⟩ := hdata
    rw [← hhead]
    exact .copy hcall hr ⟨p, h1, by omega, hsnap.trans h3⟩ (hread.append_right (by omega) more)
  | peekLoadHead hn => exact .peekLoadHead hn
  | peekLoadTail hn =>
    rw [← hhead]
    exact .peekLoadTail hn
  | peekCopy hn hdata hread => exact .peekCopy hn (by omega) (hread.append_right hdata more)

/-- Whatever the producer is copying, the published stream is in the buffer. -/
theorem ProducerAt.keeps {t : Thread Call ProducerPc} (h : ProducerAt q k stream H t) :
    ∃ done, Keeps q.buffer k (stream ++ done) H := by
  have hnil : stream ++ [] = stream := List.append_nil stream
  cases h with
  | idle hkeep | loadTail _ _ hkeep | loadHead _ _ hkeep => exact ⟨[], hnil.symm ▸ hkeep⟩
  | copy _ _ _ _ _ hkeep => exact ⟨_, hkeep⟩

end Frames

/-! ## The invariant -/

/-- The call returned `kOk`, or none of its steps touched an index or the buffer. -/
def Settles (r : Return Call Reply) : Prop :=
  (∃ bytes, r.reply = .status .kOk bytes) ∨ r.touched = false

/-- **The invariant**: the calls that have returned are explained by the stream, the indices name
its positions, and each thread is right about what it knows. -/
structure Inv (k : ℕ) (stream : List Byte) (H : ℕ) (s : SpscSystem) : Prop where
  explained : Explains (Stream.machine (2 ^ k)) [] s.history (stream.drop H)
  enqueued_eq : s.enqueued = stream
  dequeued_length : s.dequeued.length = H
  indexed : s.queue.Indexed k H stream.length
  producer : ProducerAt s.queue k stream H s.producer
  consumer : ConsumerAt s.queue k stream H s.consumer
  settles : ∀ r ∈ s.returned, Settles r

namespace Inv

variable {s : SpscSystem} {q : SpscQueue} {k H : ℕ} {stream : List Byte} {call : Call}
  {touched : Bool} {reply : Reply}

/-- A step inside an enqueue. -/
theorem producer_goto (h : Inv k stream H s) {pc : ProducerPc}
    (hi : q.Indexed k H stream.length) (hhead : q.headIdx = s.queue.headIdx)
    (hsnap : q.tailCachedSnapshot = s.queue.tailCachedSnapshot)
    (hat : ProducerAt q k stream H (.inside call pc touched)) :
    Inv k stream H (s.producerGoes call touched q (.goto pc)) := by
  have hret : (s.producerGoes call touched q (.goto pc)).returned = s.returned :=
    List.append_nil s.returned
  refine ⟨?_, ?_, ?_, hi, hat, ?_, ?_⟩
  · rw [history, hret]
    exact h.explained
  · rw [enqueued, history, hret]
    exact h.enqueued_eq
  · rw [dequeued, history, hret]
    exact h.dequeued_length
  · have hcons := h.consumer.frame hhead hsnap []
    rwa [List.append_nil] at hcons
  · rw [hret]
    exact h.settles

/-- **The return of an enqueue** that has put `data` into the stream. -/
theorem producer_ret (h : Inv k stream H s) {data : List Byte}
    (hans : Stream.answer (2 ^ k) (stream.drop H) call = (reply, (stream ++ data).drop H))
    (hpush : Stream.pushedBy (call, reply) = data) (hpop : Stream.poppedBy (call, reply) = [])
    (hi : q.Indexed k H (stream ++ data).length) (hhead : q.headIdx = s.queue.headIdx)
    (hsnap : q.tailCachedSnapshot = s.queue.tailCachedSnapshot)
    (hkeep : Keeps q.buffer k (stream ++ data) H) (hset : Settles ⟨call, reply, touched⟩) :
    Inv k (stream ++ data) H (s.producerGoes call touched q (.ret reply)) := by
  have hhist : (s.producerGoes call touched q (.ret reply)).history
      = s.history ++ [(call, reply)] := List.map_append
  refine ⟨?_, ?_, ?_, hi, .idle hkeep, h.consumer.frame hhead hsnap data, ?_⟩
  · rw [hhist]
    exact h.explained.snoc (congrArg some hans)
  · rw [enqueued, hhist, Stream.pushed_snoc, hpush]
    exact congrArg (· ++ data) h.enqueued_eq
  · rw [dequeued, hhist, Stream.popped_snoc, hpop, List.append_nil]
    exact h.dequeued_length
  · intro r hr
    rcases List.mem_append.mp hr with hr | hr
    · exact h.settles r hr
    · exact List.mem_singleton.mp hr ▸ hset

/-- A step inside a dequeue or a peek. -/
theorem consumer_goto (h : Inv k stream H s) {pc : ConsumerPc}
    (hi : q.Indexed k H stream.length) (hbuffer : q.buffer = s.queue.buffer)
    (htail : q.tailIdx = s.queue.tailIdx)
    (hsnap : q.headCachedSnapshot = s.queue.headCachedSnapshot)
    (hat : ConsumerAt q k stream H (.inside call pc touched)) :
    Inv k stream H (s.consumerGoes call touched q (.goto pc)) := by
  have hret : (s.consumerGoes call touched q (.goto pc)).returned = s.returned :=
    List.append_nil s.returned
  refine ⟨?_, ?_, ?_, hi, h.producer.frame hbuffer htail hsnap (le_refl H), hat, ?_⟩
  · rw [history, hret]
    exact h.explained
  · rw [enqueued, history, hret]
    exact h.enqueued_eq
  · rw [dequeued, history, hret]
    exact h.dequeued_length
  · rw [hret]
    exact h.settles

/-- **The return of a dequeue or a peek** that has taken `n` bytes. -/
theorem consumer_ret (h : Inv k stream H s) {n : ℕ}
    (hans : Stream.answer (2 ^ k) (stream.drop H) call = (reply, stream.drop (H + n)))
    (hpush : Stream.pushedBy (call, reply) = []) (hpop : (Stream.poppedBy (call, reply)).length = n)
    (hi : q.Indexed k (H + n) stream.length) (hbuffer : q.buffer = s.queue.buffer)
    (htail : q.tailIdx = s.queue.tailIdx)
    (hsnap : q.headCachedSnapshot = s.queue.headCachedSnapshot)
    (hset : Settles ⟨call, reply, touched⟩) :
    Inv k stream (H + n) (s.consumerGoes call touched q (.ret reply)) := by
  have hhist : (s.consumerGoes call touched q (.ret reply)).history
      = s.history ++ [(call, reply)] := List.map_append
  refine ⟨?_, ?_, ?_, hi, h.producer.frame hbuffer htail hsnap (Nat.le_add_right H n), .idle, ?_⟩
  · rw [hhist]
    exact h.explained.snoc (congrArg some hans)
  · rw [enqueued, hhist, Stream.pushed_snoc, hpush, List.append_nil]
    exact h.enqueued_eq
  · rw [dequeued, hhist, Stream.popped_snoc, List.length_append, hpop]
    exact congrArg (· + n) h.dequeued_length
  · intro r hr
    rcases List.mem_append.mp hr with hr | hr
    · exact h.settles r hr
    · exact List.mem_singleton.mp hr ▸ hset

end Inv

/-! ## Steps of the producer -/

section ProducerSteps

variable {s : SpscSystem} {k H : ℕ} {stream : List Byte} {call : Call} {touched : Bool}

/-- The producer has found room, and starts to copy. -/
theorem producerAt_copy {q : SpscQueue} (hi : q.Indexed k H stream.length) {r : EnqueueRequest}
    (hcall : call.IsEnqueue) (hr : r.Brings call.data) (hkeep : Keeps q.buffer k stream H)
    (hroom : q.HeadSnapshot k H (stream.length + call.data.length)) :
    ProducerAt q k stream H
      (.inside call (.copy r q.tailIdx (bulkSegments q.mask q.tailIdx r.sizes) r.data)
        touched) := by
  obtain ⟨p, hp, hT, _⟩ := id hroom
  have hle := hi.head_le
  have hcov : Covers (2 ^ k) stream.length (bulkSegments q.mask q.tailIdx r.sizes)
      call.data.length := by
    rw [hi.tail_eq]
    exact hr.covers hi.k_lt hi.mask_eq _ (by omega)
  have hnil : stream ++ [] = stream := List.append_nil stream
  have hdata : call.data = [] ++ r.data := hr.data_eq.symm
  refine .copy hcall hr hdata hroom ?_ ?_
  · rwa [hnil, hr.data_eq]
  · rwa [hnil]

/-- Where the head leaves too little room the enqueue fails, having touched nothing. -/
theorem Inv.producer_overflows (h : Inv k stream H s) {q : SpscQueue} (hcall : call.IsEnqueue)
    (hne : call.data ≠ []) (hover : 2 ^ k < stream.length - H + call.data.length)
    (hi : q.Indexed k H stream.length) (hhead : q.headIdx = s.queue.headIdx)
    (hsnap : q.tailCachedSnapshot = s.queue.tailCachedSnapshot)
    (hkeep : Keeps q.buffer k stream H) :
    Inv k (stream ++ []) H (s.producerGoes call false q (.ret (.status .kOverflow []))) := by
  have hocc : (stream.drop H).length = stream.length - H := List.length_drop
  refine h.producer_ret ?_ rfl (by simp [Stream.poppedBy]) ?_ hhead hsnap ?_ (.inr rfl)
  · rw [answer_of_isEnqueue hcall, Stream.enqueue_of_lt hne (by omega), List.append_nil]
  · rwa [List.append_nil]
  · rwa [List.append_nil]

/-- Every run is copied: the store of the tail makes the bytes part of the stream. -/
theorem Inv.producer_stores (h : Inv k stream H s) {r : EnqueueRequest} (hcall : call.IsEnqueue)
    (hr : r.Brings call.data)
    (hroom : s.queue.HeadSnapshot k H (stream.length + call.data.length))
    (hkeep : Keeps s.queue.buffer k (stream ++ call.data) H) :
    Inv k (stream ++ call.data) H (s.producerGoes call touched
      { s.queue with
        tailIdx := s.queue.tailIdx + r.total
        tailCached := s.queue.tailIdx + r.total } (.ret (.status .kOk []))) := by
  have hi := h.indexed
  have hocc : (stream.drop H).length = stream.length - H := List.length_drop
  have hle := hi.head_le
  obtain ⟨p, hp, hT, _⟩ := id hroom
  obtain ⟨hpush, hpop⟩ := pushedBy_of_isEnqueue hcall []
  refine h.producer_ret ?_ hpush hpop ?_ rfl rfl hkeep (.inl ⟨[], rfl⟩)
  · rw [answer_of_isEnqueue hcall, Stream.enqueue_of_le hr.ne_nil (by omega),
      List.drop_append_of_le_length hle]
  · have := hi.advanceTail hroom s.queue.buffer
    rwa [← hi.tail_eq, ← hr.total_eq, ← List.length_append] at this

/-- **The producer's steps keep the invariant.** -/
theorem Inv.stepProducer (h : Inv k stream H s) {pc : ProducerPc}
    (hpc : s.producer = .inside call pc touched) :
    ∃ stream', Inv k stream' H
      (s.producerGoes call (touched || s.queue.touchedBy (s.queue.stepProducer pc).1)
        (s.queue.stepProducer pc).1 (s.queue.stepProducer pc).2) := by
  have hi := h.indexed
  have hle := hi.head_le
  have hat := h.producer
  rw [hpc] at hat
  cases hat with
  | @loadTail call r hcall hr hkeep =>
    refine ⟨stream, ?_⟩
    rw [SpscQueue.stepProducer]
    by_cases hsnap : s.queue.capacity - (s.queue.tailIdx - s.queue.headCachedSnapshot) < r.total
    · rw [if_pos hsnap, SpscQueue.touchedBy_self]
      exact h.producer_goto hi rfl rfl (.loadHead hcall hr hkeep)
    · rw [if_neg hsnap]
      rw [hr.total_eq] at hsnap
      exact h.producer_goto hi rfl rfl
        (producerAt_copy hi hcall hr hkeep (hi.room_of_snapshot hr.lt hsnap))
  | @loadHead call r hcall hr hkeep =>
    rw [SpscQueue.stepProducer]
    by_cases hover : s.queue.capacity - (s.queue.tailIdx - s.queue.headIdx) < r.total
    · rw [if_pos hover, SpscQueue.touchedBy_headCachedSnapshot]
      rw [hr.total_eq, hi.overflow_iff hr.lt] at hover
      exact ⟨stream ++ [],
        h.producer_overflows hcall hr.ne_nil hover hi.refreshHead rfl rfl hkeep⟩
    · rw [if_neg hover]
      rw [hr.total_eq, hi.overflow_iff hr.lt] at hover
      have hroom : SpscQueue.HeadSnapshot { s.queue with headCachedSnapshot := s.queue.headIdx } k H
          (stream.length + call.data.length) := ⟨H, le_refl H, by omega, hi.head_eq⟩
      exact ⟨stream, h.producer_goto hi.refreshHead rfl rfl
        (producerAt_copy hi.refreshHead hcall hr hkeep hroom)⟩
  | @copy call r segs done rest touched hcall hr hdata hroom hcov hkeep =>
    obtain ⟨p, hp, hT, _⟩ := id hroom
    have hsum : call.data.length = done.length + rest.length := by
      rw [hdata, List.length_append]
    cases segs with
    | nil =>
      obtain rfl : rest = [] := List.eq_nil_of_length_eq_zero hcov.eq_zero_of_nil
      obtain rfl : call.data = done := by rw [hdata, List.append_nil]
      exact ⟨stream ++ call.data, h.producer_stores hcall hr hroom hkeep⟩
    | cons seg segs =>
      obtain ⟨off, len⟩ := seg
      obtain ⟨hkeep', hcov', hlen⟩ := hkeep.copyIn hcov (by rw [List.length_append]; omega)
      rw [SpscQueue.stepProducer]
      rw [List.append_assoc] at hkeep' hcov'
      refine ⟨stream, h.producer_goto { hi with } rfl rfl ?_⟩
      refine .copy hcall hr ?_ hroom hcov' hkeep'
      rw [List.append_assoc, List.take_append_drop, hdata]

/-- **A call of the producer begins with the invariant.** -/
theorem Inv.beginProducer (h : Inv k stream H s) (hidle : s.producer = .idle) (hv : call.Valid)
    {next : Next ProducerPc Reply} (hbegin : s.queue.beginProducer call = some next) :
    ∃ stream', Inv k stream' H (s.producerGoes call false s.queue next) := by
  have hat := h.producer
  rw [hidle] at hat
  obtain ⟨hkeep⟩ := hat
  obtain ⟨x, hx, rfl⟩ := Option.map_eq_some_iff.mp hbegin
  rw [hkeep.isSome] at hx
  obtain ⟨hcall, ⟨rfl, hd⟩ | ⟨r, rfl, hr⟩⟩ := checkEnqueue_spec hx hv
  · refine ⟨stream ++ [], h.producer_ret ?_ rfl (by simp [Stream.poppedBy]) ?_ rfl rfl ?_
      (.inr rfl)⟩
    · rw [answer_of_isEnqueue hcall, hd, Stream.enqueue_nil, List.append_nil]
    · rw [List.append_nil]
      exact h.indexed
    · rwa [List.append_nil]
  · exact ⟨stream, h.producer_goto h.indexed rfl rfl (.loadTail hcall hr hkeep)⟩

end ProducerSteps

/-! ## Steps of the consumer -/

section ConsumerSteps

variable {s : SpscSystem} {k H : ℕ} {stream : List Byte} {call : Call} {touched : Bool}

/-- A failed dequeue or peek returns without having touched anything. -/
theorem Inv.consumer_fails (h : Inv k stream H s) {q : SpscQueue} {status : QueueStatus}
    (hans : Stream.answer (2 ^ k) (stream.drop H) call = (.status status [], stream.drop H))
    (hne : status ≠ .kOk) (hi : q.Indexed k H stream.length)
    (hbuffer : q.buffer = s.queue.buffer) (htail : q.tailIdx = s.queue.tailIdx)
    (hsnap : q.headCachedSnapshot = s.queue.headCachedSnapshot) :
    Inv k stream (H + 0) (s.consumerGoes call false q (.ret (.status status []))) := by
  refine h.consumer_ret hans ?_ ?_ hi hbuffer htail hsnap (.inr rfl)
  · cases status with
    | kOk => exact absurd rfl hne
    | _ => rfl
  · cases status with
    | kOk => exact absurd rfl hne
    | _ => simp [Stream.poppedBy]

/-- The consumer has found data, and starts to copy. -/
theorem consumerAt_copy {q : SpscQueue} (hi : q.Indexed k H stream.length) {r : DequeueRequest}
    (hcall : call.IsDequeue) (hr : r.Takes call.asked)
    (hdata : q.TailSnapshot (H + call.asked) stream.length) :
    ConsumerAt q k stream H
      (.inside call (.copy r q.headIdx (bulkSegments q.mask q.headIdx r.sizes) []) false) := by
  obtain ⟨p, hp, hT, _⟩ := id hdata
  have hle := hi.tail_le
  refine .copy hcall hr hdata (.start ?_)
  rw [hi.head_eq]
  exact hr.covers hi.k_lt hi.mask_eq _ (by omega)

/-- A peek finds too little if the stream is too short. -/
theorem peek_underflow_iff {q : SpscQueue} (hi : q.Indexed k H stream.length) (n : Size) :
    n > q.tailIdx - q.headIdx ↔ stream.length - H < n.toNat := by
  have hword : n = BitVec.ofNat 64 n.toNat := eq_ofNat_of_toNat_eq rfl
  have hiff := hi.underflow_iff n.isLt
  rwa [← hword] at hiff

/-- A peek has found data, and starts to copy. -/
theorem consumerAt_peekCopy {q : SpscQueue} (hi : q.Indexed k H stream.length) {n : Size}
    (hn : n.toNat ≠ 0) (hdata : H + n.toNat ≤ stream.length) : ConsumerAt q k stream H
      (.inside (.peekBytes n) (.peekCopy (segments q.mask q.headIdx n) []) false) := by
  have hword : n = BitVec.ofNat 64 n.toNat := eq_ofNat_of_toNat_eq rfl
  have hT := hi.tail_le
  have hcov := covers_segments hi.k_lt hi.mask_eq H (n := n.toNat) (by omega)
  rw [← hi.head_eq, ← hword] at hcov
  exact .peekCopy hn hdata (.start hcov)

/-- Every run is copied: the store of the head takes the bytes out of the stream. -/
theorem Inv.consumer_stores (h : Inv k stream H s) {r : DequeueRequest} (hcall : call.IsDequeue)
    (hr : r.Takes call.asked) (hdata : s.queue.TailSnapshot (H + call.asked) stream.length) :
    Inv k stream (H + call.asked) (s.consumerGoes call touched
      { s.queue with
        headIdx := s.queue.headIdx + r.total
        headCached := s.queue.headIdx + r.total }
      (.ret (.status .kOk ((stream.drop H).take call.asked)))) := by
  have hi := h.indexed
  have hocc : (stream.drop H).length = stream.length - H := List.length_drop
  obtain ⟨p, hp, hpT, _⟩ := id hdata
  obtain ⟨hpush, hpop⟩ := poppedBy_of_isDequeue hcall ((stream.drop H).take call.asked)
  refine h.consumer_ret ?_ hpush ?_ ?_ rfl rfl rfl (.inl ⟨_, rfl⟩)
  · rw [answer_of_isDequeue hcall, Stream.peek_of_le hr.ne_zero (by omega),
      Stream.rest_of_le (by omega), List.drop_drop]
  · rw [hpop, List.length_take]
    omega
  · have := hi.advanceHead hdata
    rwa [← hi.head_eq, ← hr.total_eq] at this

/-- **The consumer's steps keep the invariant.** -/
theorem Inv.stepConsumer (h : Inv k stream H s) {pc : ConsumerPc}
    (hpc : s.consumer = .inside call pc touched) :
    ∃ H', Inv k stream H'
      (s.consumerGoes call (touched || s.queue.touchedBy (s.queue.stepConsumer pc).1)
        (s.queue.stepConsumer pc).1 (s.queue.stepConsumer pc).2) := by
  have hi := h.indexed
  have hle := hi.head_le
  have hocc : (stream.drop H).length = stream.length - H := List.length_drop
  obtain ⟨done, hkeep⟩ := h.producer.keeps
  have hat := h.consumer
  rw [hpc] at hat
  cases hat with
  | @loadHead call r hcall hr =>
    refine ⟨H, ?_⟩
    rw [SpscQueue.stepConsumer]
    by_cases hsnap : s.queue.tailCachedSnapshot - s.queue.headIdx < r.total
    · rw [if_pos hsnap, SpscQueue.touchedBy_self]
      exact h.consumer_goto hi rfl rfl rfl (.loadTail hcall hr)
    · rw [if_neg hsnap, SpscQueue.touchedBy_self]
      rw [hr.total_eq] at hsnap
      exact h.consumer_goto hi rfl rfl rfl
        (consumerAt_copy hi hcall hr (hi.data_of_snapshot hr.lt hsnap))
  | @loadTail call r hcall hr =>
    rw [SpscQueue.stepConsumer]
    by_cases hunder : s.queue.tailIdx - s.queue.headIdx < r.total
    · rw [if_pos hunder, SpscQueue.touchedBy_tailCachedSnapshot]
      rw [hr.total_eq, hi.underflow_iff hr.lt] at hunder
      refine ⟨H + 0, h.consumer_fails ?_ (by decide) hi.refreshTail rfl rfl rfl⟩
      rw [answer_of_isDequeue hcall, Stream.peek_of_lt hr.ne_zero (by omega),
        Stream.rest_of_lt (by omega)]
    · rw [if_neg hunder, SpscQueue.touchedBy_tailCachedSnapshot]
      rw [hr.total_eq, hi.underflow_iff hr.lt] at hunder
      have hdata : SpscQueue.TailSnapshot { s.queue with tailCachedSnapshot := s.queue.tailIdx }
          (H + call.asked) stream.length := ⟨stream.length, by omega, le_refl _, hi.tail_eq⟩
      exact ⟨H, h.consumer_goto hi.refreshTail rfl rfl rfl
        (consumerAt_copy hi.refreshTail hcall hr hdata)⟩
  | @copy call r segs out hcall hr hdata hread =>
    obtain ⟨p, hp, hpT, _⟩ := id hdata
    cases segs with
    | nil =>
      obtain rfl : out = (stream.drop H).take call.asked := hread.done
      exact ⟨H + call.asked, h.consumer_stores hcall hr hdata⟩
    | cons seg segs =>
      obtain ⟨off, len⟩ := seg
      rw [SpscQueue.stepConsumer, SpscQueue.touchedBy_self]
      exact ⟨H, h.consumer_goto hi rfl rfl rfl
        (.copy hcall hr hdata (hkeep.copyOut hread (Nat.le_add_right H _) (by omega)))⟩
  | @peekLoadHead n hn =>
    rw [SpscQueue.stepConsumer, SpscQueue.touchedBy_self]
    exact ⟨H, h.consumer_goto hi rfl rfl rfl (.peekLoadTail hn)⟩
  | @peekLoadTail n hn =>
    rw [SpscQueue.stepConsumer]
    by_cases hunder : n > s.queue.tailIdx - s.queue.headIdx
    · rw [if_pos hunder, SpscQueue.touchedBy_self]
      rw [peek_underflow_iff hi] at hunder
      refine ⟨H + 0, h.consumer_fails ?_ (by decide) hi rfl rfl rfl⟩
      rw [Stream.answer, Stream.peek_of_lt hn (by omega)]
    · rw [if_neg hunder, SpscQueue.touchedBy_self]
      rw [peek_underflow_iff hi] at hunder
      exact ⟨H, h.consumer_goto hi rfl rfl rfl (consumerAt_peekCopy hi hn (by omega))⟩
  | @peekCopy n segs out hn hdata hread =>
    cases segs with
    | nil =>
      obtain rfl : out = (stream.drop H).take n.toNat := hread.done
      rw [SpscQueue.stepConsumer, SpscQueue.touchedBy_self]
      refine ⟨H + 0, h.consumer_ret ?_ rfl rfl hi rfl rfl rfl (.inr rfl)⟩
      rw [Stream.answer, Stream.peek_of_le hn (by omega)]
      rfl
    | cons seg segs =>
      obtain ⟨off, len⟩ := seg
      rw [SpscQueue.stepConsumer, SpscQueue.touchedBy_self]
      exact ⟨H, h.consumer_goto hi rfl rfl rfl
        (.peekCopy hn hdata (hkeep.copyOut hread (Nat.le_add_right H _) hdata))⟩

/-- **A call of the consumer begins with the invariant.** -/
theorem Inv.beginConsumer (h : Inv k stream H s) (hv : call.Valid)
    {next : Next ConsumerPc Reply} (hbegin : s.queue.beginConsumer call = some next) :
    Inv k stream (H + 0) (s.consumerGoes call false s.queue next) := by
  obtain ⟨done, hkeep⟩ := h.producer.keeps
  have hdequeue (hmap : (checkDequeue s.queue.buffer.isSome call).map (.ofCheck .loadHead)
      = some next) : Inv k stream (H + 0) (s.consumerGoes call false s.queue next) := by
    obtain ⟨x, hx, rfl⟩ := Option.map_eq_some_iff.mp hmap
    rw [hkeep.isSome] at hx
    obtain ⟨hcall, ⟨rfl, hn⟩ | ⟨r, rfl, hr⟩⟩ := checkDequeue_spec hx hv
    · refine h.consumer_fails ?_ (by decide) h.indexed rfl rfl rfl
      rw [answer_of_isDequeue hcall, hn, Stream.peek_zero, Stream.rest_zero]
    · exact h.consumer_goto h.indexed rfl rfl rfl (.loadHead hcall hr)
  cases call with
  | peekBytes n =>
    obtain rfl := Option.some.inj hbegin
    rw [hkeep.isSome, if_neg (by decide)]
    by_cases hn : n = 0#64
    · subst hn
      exact h.consumer_fails rfl (by decide) h.indexed rfl rfl rfl
    · rw [if_neg hn]
      exact h.consumer_goto h.indexed rfl rfl rfl
        (.peekLoadHead fun h0 => hn (BitVec.eq_of_toNat_eq h0))
  | _ => exact hdequeue hbegin

end ConsumerSteps

/-! ## Runs -/

section Runs

variable {s s' : SpscSystem} {k H : ℕ} {stream : List Byte} {a : SpscAction}

/-- **Every step keeps the invariant.** -/
theorem Inv.step (h : Inv k stream H s) (hv : a.Valid) (hstep : s.step a = some s') :
    ∃ stream' H', Inv k stream' H' s' := by
  cases stepped_of_step hstep with
  | produce hidle hbegin =>
    obtain ⟨stream', hinv⟩ := h.beginProducer hidle hv hbegin
    exact ⟨stream', H, hinv⟩
  | consume hidle hbegin => exact ⟨stream, H + 0, h.beginConsumer hv hbegin⟩
  | stepProducer hpc =>
    obtain ⟨stream', hinv⟩ := h.stepProducer hpc
    exact ⟨stream', H, hinv⟩
  | stepConsumer hpc =>
    obtain ⟨H', hinv⟩ := h.stepConsumer hpc
    exact ⟨stream, H', hinv⟩

/-- A reserved queue starts with the invariant. -/
theorem inv_of_reserve {mem : Allocator} {n : Size} {q : SpscQueue}
    (hq : SpscQueue.reserve mem n = some q) (hbuf : q.buffer.isSome) :
    ∃ k, Inv k [] 0 { queue := q } := by
  obtain ⟨k, _, _, hi, hkeep⟩ := SpscQueue.indexed_of_reserve hq hbuf
  refine ⟨k, ?_⟩
  exact
    { explained := .nil
      enqueued_eq := rfl
      dequeued_length := rfl
      indexed := hi
      producer := .idle hkeep
      consumer := .idle
      settles := by simp }

/-- **Every reachable state has the invariant.** -/
theorem inv_of_reaches {q : SpscQueue} (hinit : Inv k [] 0 { queue := q })
    (hrun : Reaches SpscSystem.step (fun _ a => a.Valid) { queue := q } s) :
    ∃ stream H, Inv k stream H s := by
  refine hrun.invariant (I := fun s => ∃ stream H, Inv k stream H s) ⟨[], 0, hinit⟩ ?_
  rintro s s' a ⟨stream, H, h⟩ hv hstep
  exact h.step hv hstep

/-- Where a return comes from: a step of the producer, a step of the consumer, or the checks at the
start of a call. -/
theorem step_returns {r : Return Call Reply} (hstep : s.step a = some s')
    (hret : s'.returned = s.returned ++ [r]) :
    (∃ pc touched, s.producer = .inside r.call pc touched
        ∧ (s.queue.stepProducer pc).2 = .ret r.reply)
      ∨ (∃ pc touched, s.consumer = .inside r.call pc touched
        ∧ (s.queue.stepConsumer pc).2 = .ret r.reply)
      ∨ ∃ status, Refused status ∧ r.reply = .status status [] := by
  cases stepped_of_step hstep with
  | produce hidle hbegin =>
    obtain ⟨_, rfl⟩ := Next.eq_ret_of_returned (List.append_cancel_left hret)
    obtain ⟨x, hx, hnext⟩ := Option.map_eq_some_iff.mp hbegin
    obtain ⟨status, rfl, hreply⟩ := Next.eq_error_of_ofCheck hnext
    exact .inr (.inr ⟨status, refused_of_checkEnqueue hx, hreply⟩)
  | @consume call next hidle hbegin =>
    obtain ⟨_, rfl⟩ := Next.eq_ret_of_returned (List.append_cancel_left hret)
    have hdequeue (hmap : (checkDequeue s.queue.buffer.isSome call).map
        (Next.ofCheck ConsumerPc.loadHead) = some (Next.ret r.reply)) :
        ∃ status, Refused status ∧ r.reply = .status status [] := by
      obtain ⟨x, hx, hnext⟩ := Option.map_eq_some_iff.mp hmap
      obtain ⟨status, rfl, hreply⟩ := Next.eq_error_of_ofCheck hnext
      exact ⟨status, refused_of_checkDequeue hx, hreply⟩
    refine .inr (.inr ?_)
    cases call with
    | peekBytes n =>
      have hnext := Option.some.inj hbegin
      split_ifs at hnext
      · exact ⟨.kUninitialized, .inl rfl, (Next.ret.inj hnext).symm⟩
      · exact ⟨.kSizeIsZero, .inr rfl, (Next.ret.inj hnext).symm⟩
    | _ => exact hdequeue hbegin
  | stepProducer hpc =>
    obtain ⟨rfl, hnext⟩ := Next.eq_ret_of_returned (List.append_cancel_left hret)
    exact .inl ⟨_, _, hpc, hnext⟩
  | stepConsumer hpc =>
    obtain ⟨rfl, hnext⟩ := Next.eq_ret_of_returned (List.append_cancel_left hret)
    exact .inr (.inl ⟨_, _, hpc, hnext⟩)

end Runs

/-! ## The refinement -/

section Failures

variable {q : SpscQueue} {bytes : List Byte}

/-- A step of an enqueue returns no `kUnderflow`, and `kOverflow` only where it re-reads the
head. -/
theorem stepProducer_fails {pc : ProducerPc} {status : QueueStatus}
    (h : (q.stepProducer pc).2 = .ret (.status status bytes)) (hne : status ≠ .kOk) :
    status = .kOverflow ∧ ∃ r tail, pc = .loadHead r tail
      ∧ q.capacity - (tail - q.headIdx) < r.total := by
  cases pc with
  | loadTail r =>
    rw [SpscQueue.stepProducer] at h
    split_ifs at h
  | loadHead r tail =>
    rw [SpscQueue.stepProducer] at h
    by_cases hover : q.capacity - (tail - q.headIdx) < r.total
    · rw [if_pos hover] at h
      injection h with h
      injection h with h
      exact ⟨h.symm, r, tail, rfl, hover⟩
    · rw [if_neg hover] at h
      cases h
  | copy r tail segs rest =>
    cases segs with
    | nil =>
      injection h with h
      injection h with h
      exact absurd h.symm hne
    | cons seg segs => cases h

/-- A step of a dequeue or a peek returns no `kOverflow`, and `kUnderflow` only where it reads the
tail. -/
theorem stepConsumer_fails {pc : ConsumerPc} {status : QueueStatus}
    (h : (q.stepConsumer pc).2 = .ret (.status status bytes)) (hne : status ≠ .kOk) :
    status = .kUnderflow ∧ ((∃ r head, pc = .loadTail r head ∧ q.tailIdx - head < r.total)
      ∨ ∃ n head, pc = .peekLoadTail n head ∧ q.tailIdx - head < n) := by
  cases pc with
  | loadHead r =>
    rw [SpscQueue.stepConsumer] at h
    split_ifs at h
  | loadTail r head =>
    rw [SpscQueue.stepConsumer] at h
    by_cases hunder : q.tailIdx - head < r.total
    · rw [if_pos hunder] at h
      injection h with h
      injection h with h
      exact ⟨h.symm, .inl ⟨r, head, rfl, hunder⟩⟩
    · rw [if_neg hunder] at h
      cases h
  | copy r head segs out =>
    cases segs with
    | nil =>
      injection h with h
      injection h with h
      exact absurd h.symm hne
    | cons seg segs => cases h
  | peekLoadHead n => cases h
  | peekLoadTail n head =>
    rw [SpscQueue.stepConsumer] at h
    by_cases hunder : n > q.tailIdx - head
    · rw [if_pos hunder] at h
      injection h with h
      injection h with h
      exact ⟨h.symm, .inr ⟨n, head, rfl, hunder⟩⟩
    · rw [if_neg hunder] at h
      cases h
  | peekCopy segs out =>
    cases segs with
    | nil =>
      injection h with h
      injection h with h
      exact absurd h.symm hne
    | cons seg segs => cases h

end Failures

/-- **What a run of the system keeps to.** -/
structure RefinesStream (s : SpscSystem) : Prop where
  /-- The calls answer, in the order of their returns, as a FIFO stream of the queue's capacity. -/
  explained : Explains (Stream.machine s.queue.capacity.toNat) [] s.history
    (s.enqueued.drop s.dequeued.length)
  in_order : s.dequeued <+: s.enqueued
  /-- A successful peek returns the bytes that are next at its return. -/
  peeks : ∀ {before after n bytes touched},
    s.returned = before ++ ⟨.peekBytes n, .status .kOk bytes, touched⟩ :: after →
      bytes.length = n.toNat
        ∧ bytes <+: (Stream.pushed (before.map Return.entry)).drop
            (Stream.popped (before.map Return.entry)).length
  /-- Every byte not yet dequeued is in its cell. -/
  kept : ∃ buffer, s.queue.buffer = some buffer ∧ ∀ p, s.dequeued.length ≤ p →
    p < s.enqueued.length → buffer[p % s.queue.capacity.toNat]? = s.enqueued[p]?
  occupied : (s.queue.tailIdx - s.queue.headIdx).toNat = s.enqueued.length - s.dequeued.length
  /-- `kOverflow` comes from the step that re-reads the head, and only for want of room. -/
  overflow : ∀ {a s' call bytes touched}, s.step a = some s' →
    s'.returned = s.returned ++ [⟨call, .status .kOverflow bytes, touched⟩] →
      (∃ r tail touched, s.producer = .inside call (.loadHead r tail) touched)
        ∧ s.queue.capacity.toNat
          < (s.queue.tailIdx - s.queue.headIdx).toNat + call.data.length
  /-- `kUnderflow` comes from the step that reads the tail, and only for want of data. -/
  underflow : ∀ {a s' call bytes touched}, s.step a = some s' →
    s'.returned = s.returned ++ [⟨call, .status .kUnderflow bytes, touched⟩] →
      ((∃ r head touched, s.consumer = .inside call (.loadTail r head) touched)
          ∨ ∃ n head touched, s.consumer = .inside call (.peekLoadTail n head) touched)
        ∧ (s.queue.tailIdx - s.queue.headIdx).toNat < call.asked
  /-- A call that did not return `kOk` touched neither the indices nor the buffer. -/
  settles : ∀ r ∈ s.returned, Settles r

section Refinement

variable {s : SpscSystem} {k H : ℕ} {stream : List Byte} {call : Call}

/-- The occupied part of the queue, in words and in positions. -/
theorem Inv.occupied (h : Inv k stream H s) :
    (s.queue.tailIdx - s.queue.headIdx).toNat = stream.length - H := by
  have hi := h.indexed
  have hT := hi.tail_le
  have hpow : 2 ^ k < 2 ^ 64 := Nat.pow_lt_pow_right (by norm_num) hi.k_lt
  rw [hi.tail_eq, hi.head_eq]
  exact toNat_ofNat_sub_ofNat hi.head_le (by omega)

theorem Inv.capacity_toNat (h : Inv k stream H s) : s.queue.capacity.toNat = 2 ^ k := by
  rw [h.indexed.capacity_eq]
  exact toNat_ofNat_of_lt (Nat.pow_lt_pow_right (by norm_num) h.indexed.k_lt)

/-- A successful peek returns the bytes that are next at its return. -/
theorem Inv.peeks (h : Inv k stream H s) {before after : List (Return Call Reply)} {n : Size}
    {bytes : List Byte} {touched : Bool}
    (hsplit : s.returned = before ++ ⟨.peekBytes n, .status .kOk bytes, touched⟩ :: after) :
    bytes.length = n.toNat
      ∧ bytes <+: (Stream.pushed (before.map Return.entry)).drop
          (Stream.popped (before.map Return.entry)).length := by
  have hhist : s.history = before.map Return.entry
      ++ (.peekBytes n, .status .kOk bytes) :: after.map Return.entry := by
    rw [history, hsplit, List.map_append, List.map_cons]
    rfl
  obtain ⟨s₁, s₂, hbefore, hanswer⟩ := h.explained.split hhist
  obtain ⟨l, rfl, hl, hl'⟩ := Stream.ledger_of_explains hbefore
  obtain ⟨hreply, rfl⟩ := Prod.mk.inj (Option.some.inj hanswer)
  injection hreply with hstatus hbytes
  rw [← hl, ← hl', ← l.contents_eq]
  exact Stream.peek_kOk (Prod.ext hstatus hbytes)

/-- `kOverflow` comes from the step that re-reads the head, and only for want of room. -/
theorem Inv.overflows (h : Inv k stream H s) {a : SpscAction} {s' : SpscSystem}
    {bytes : List Byte} {touched : Bool} (hstep : s.step a = some s')
    (hret : s'.returned = s.returned ++ [⟨call, .status .kOverflow bytes, touched⟩]) :
    (∃ r tail touched, s.producer = .inside call (.loadHead r tail) touched)
      ∧ s.queue.capacity.toNat < (s.queue.tailIdx - s.queue.headIdx).toNat + call.data.length := by
  rcases step_returns hstep hret with ⟨pc, t, hpc, hnext⟩ | ⟨pc, t, hpc, hnext⟩ | ⟨st, hst, hr⟩
  · obtain ⟨_, r, tail, rfl, hover⟩ := stepProducer_fails hnext (by decide)
    have hat := h.producer
    rw [hpc] at hat
    cases hat with
    | loadHead hcall hbrings hkeep =>
      rw [hbrings.total_eq, h.indexed.overflow_iff hbrings.lt] at hover
      rw [h.capacity_toNat, h.occupied]
      exact ⟨⟨r, _, _, hpc⟩, hover⟩
  · exact absurd (stepConsumer_fails hnext (by decide)).1 (by decide)
  · injection hr with hr
    rcases hst with hst | hst <;> exact absurd (hr.trans hst) (by decide)

/-- `kUnderflow` comes from the step that reads the tail, and only for want of data. -/
theorem Inv.underflows (h : Inv k stream H s) {a : SpscAction} {s' : SpscSystem}
    {bytes : List Byte} {touched : Bool} (hstep : s.step a = some s')
    (hret : s'.returned = s.returned ++ [⟨call, .status .kUnderflow bytes, touched⟩]) :
    ((∃ r head touched, s.consumer = .inside call (.loadTail r head) touched)
        ∨ ∃ n head touched, s.consumer = .inside call (.peekLoadTail n head) touched)
      ∧ (s.queue.tailIdx - s.queue.headIdx).toNat < call.asked := by
  rcases step_returns hstep hret with ⟨pc, t, hpc, hnext⟩ | ⟨pc, t, hpc, hnext⟩ | ⟨st, hst, hr⟩
  · exact absurd (stepProducer_fails hnext (by decide)).1 (by decide)
  · have hat := h.consumer
    rw [hpc] at hat
    rw [h.occupied]
    obtain ⟨_, ⟨r, head, rfl, hunder⟩ | ⟨n, head, rfl, hunder⟩⟩ :=
      stepConsumer_fails hnext (by decide)
    · cases hat with
      | loadTail hcall htakes =>
        rw [htakes.total_eq, h.indexed.underflow_iff htakes.lt] at hunder
        exact ⟨.inl ⟨r, _, _, hpc⟩, hunder⟩
    · cases hat with
      | peekLoadTail hn =>
        exact ⟨.inr ⟨n, _, _, hpc⟩, (peek_underflow_iff h.indexed n).mp hunder⟩
  · injection hr with hr
    rcases hst with hst | hst <;> exact absurd (hr.trans hst) (by decide)

/-- **The invariant is enough.** -/
theorem Inv.refines (h : Inv k stream H s) : s.RefinesStream := by
  have hcap := h.capacity_toNat
  obtain ⟨ledger, hcontents, hpop, hpush⟩ := Stream.ledger_of_explains h.explained
  obtain ⟨done, block, hbuf, hlen, hhold⟩ := h.producer.keeps
  refine ⟨?_, ?_, h.peeks, ⟨block, hbuf, ?_⟩, ?_, h.overflows, h.underflows, h.settles⟩
  · rw [hcap, h.enqueued_eq, h.dequeued_length]
    exact h.explained
  · rw [dequeued, enqueued, ← hpop, ← hpush]
    exact ledger.popped_le_pushed
  · rw [h.dequeued_length, h.enqueued_eq, hcap]
    exact (hhold.mono (le_refl H) (by simp)).of_append_right (le_refl _)
  · rw [h.occupied, h.enqueued_eq, h.dequeued_length]

/-- **`SpscQueue` refines a FIFO byte stream** in every interleaving of the steps of one producer
and one consumer, from any reserved queue on and through any number of wrap-arounds of its
indices. -/
theorem refines_stream {mem : Allocator} {n : Size} {q : SpscQueue}
    (hq : SpscQueue.reserve mem n = some q) (hbuf : q.buffer.isSome)
    (hrun : Reaches SpscSystem.step (fun _ a => a.Valid) { queue := q } s) : s.RefinesStream := by
  obtain ⟨k, hinit⟩ := inv_of_reserve hq hbuf
  obtain ⟨stream, H, h⟩ := inv_of_reaches hinit hrun
  exact h.refines

/-- Three bytes through a queue of four, the dequeue beginning before the enqueue has returned. -/
theorem refines_stream_four : ∃ q s, SpscQueue.reserve .zeroed 4#64 = some q
    ∧ execute SpscSystem.step (fun _ a => decide a.Valid) { queue := q }
        [.produce (.enqueueBytes [1, 2, 3]), .consume (.dequeueBytes 2#64), .stepProducer,
          .stepConsumer, .stepProducer, .stepProducer, .stepConsumer, .stepConsumer, .stepConsumer]
      = some s
    ∧ s.dequeued = [1, 2] ∧ s.RefinesStream := by
  obtain ⟨s, hs, hout⟩ : ∃ s, execute SpscSystem.step (fun _ a => decide a.Valid)
      { queue := { buffer := some (List.replicate 68 0), capacity := 4#64, mask := 3#64 } }
      [.produce (.enqueueBytes [1, 2, 3]), .consume (.dequeueBytes 2#64), .stepProducer,
        .stepConsumer, .stepProducer, .stepProducer, .stepConsumer, .stepConsumer, .stepConsumer]
      = some s ∧ s.dequeued = [1, 2] := Option.map_eq_some_iff.mp rfl
  have hq : SpscQueue.reserve .zeroed 4#64
      = some { buffer := some (List.replicate 68 0), capacity := 4#64, mask := 3#64 } := rfl
  exact ⟨_, s, hq, hs, hout, refines_stream hq rfl (Reaches.of_execute of_decide_eq_true hs)⟩

end Refinement

end SpscSystem

end Femtolog
