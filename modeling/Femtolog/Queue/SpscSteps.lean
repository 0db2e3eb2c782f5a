import Femtolog.Foundations.Runs
import Femtolog.Queue.Spsc

/-!
# Queue/SpscSteps — `SpscQueue` in steps, with a producer and a consumer

The two threads take their calls in steps: a load of an index (with the comparisons that follow it,
which read nothing shared), one `memcpy`, the store of an index (with the return).  The system steps
one thread at a time, in any order.  A thread that is left alone steps through the call of
`Queue/Spsc` (`finishes_enqueue`, `finishes_dequeue`).
-/

namespace Femtolog

/-! ## The two programs -/

/-- Where the producer is in a call.  At `copy` the runs `segs` and the bytes `rest` are still to be
copied; with no run left it is about to store the tail. -/
inductive ProducerPc
  | loadTail (r : EnqueueRequest)
  | loadHead (r : EnqueueRequest) (tail : Size)
  | copy (r : EnqueueRequest) (tail : Size) (segs : List (ℕ × ℕ)) (rest : List Byte)

/-- Where the consumer is in a call.  At `copy` it has gathered `out`; with no run left it is about
to store the head. -/
inductive ConsumerPc
  | loadHead (r : DequeueRequest)
  | loadTail (r : DequeueRequest) (head : Size)
  | copy (r : DequeueRequest) (head : Size) (segs : List (ℕ × ℕ)) (out : List Byte)
  | peekLoadHead (size : Size)
  | peekLoadTail (size head : Size)
  | peekCopy (segs : List (ℕ × ℕ)) (out : List Byte)

namespace SpscQueue

/-- The start of `enqueue_bytes` and `enqueue_bulk`. -/
def beginProducer (q : SpscQueue) (call : Call) : Option (Next ProducerPc Reply) :=
  (checkEnqueue q.buffer.isSome call).map (.ofCheck .loadTail)

/-- One step of `enqueue_bytes` or `enqueue_bulk`. -/
def stepProducer (q : SpscQueue) : ProducerPc → SpscQueue × Next ProducerPc Reply
  | .loadTail r =>
    if q.capacity - (q.tailIdx - q.headCachedSnapshot) < r.total then
      (q, .goto (.loadHead r q.tailIdx))
    else (q, .goto (.copy r q.tailIdx (bulkSegments q.mask q.tailIdx r.sizes) r.data))
  | .loadHead r tail =>
    let q' := { q with headCachedSnapshot := q.headIdx }
    if q.capacity - (tail - q.headIdx) < r.total then (q', .ret (.status .kOverflow []))
    else (q', .goto (.copy r tail (bulkSegments q.mask tail r.sizes) r.data))
  | .copy r tail ((off, len) :: segs) rest =>
    ({ q with buffer := copyIn q.buffer off len rest }, .goto (.copy r tail segs (rest.drop len)))
  | .copy r tail [] _ =>
    ({ q with tailIdx := tail + r.total, tailCached := tail + r.total }, .ret (.status .kOk []))

/-- The start of `dequeue_bytes`, `dequeue_bulk` and `peek_bytes`. -/
def beginConsumer (q : SpscQueue) : Call → Option (Next ConsumerPc Reply)
  | .peekBytes size =>
    some <|
      if q.buffer.isSome = false then .ret (.status .kUninitialized [])
      else if size = 0#64 then .ret (.status .kSizeIsZero [])
      else .goto (.peekLoadHead size)
  | call => (checkDequeue q.buffer.isSome call).map (.ofCheck .loadHead)

/-- One step of `dequeue_bytes`, `dequeue_bulk` or `peek_bytes`. -/
def stepConsumer (q : SpscQueue) : ConsumerPc → SpscQueue × Next ConsumerPc Reply
  | .loadHead r =>
    if q.tailCachedSnapshot - q.headIdx < r.total then (q, .goto (.loadTail r q.headIdx))
    else (q, .goto (.copy r q.headIdx (bulkSegments q.mask q.headIdx r.sizes) []))
  | .loadTail r head =>
    let q' := { q with tailCachedSnapshot := q.tailIdx }
    if q.tailIdx - head < r.total then (q', .ret (.status .kUnderflow []))
    else (q', .goto (.copy r head (bulkSegments q.mask head r.sizes) []))
  | .copy r head ((off, len) :: segs) out =>
    (q, .goto (.copy r head segs (out ++ copyOut q.buffer off len)))
  | .copy r head [] out =>
    ({ q with headIdx := head + r.total, headCached := head + r.total }, .ret (.status .kOk out))
  | .peekLoadHead size => (q, .goto (.peekLoadTail size q.headIdx))
  | .peekLoadTail size head =>
    if size > q.tailIdx - head then (q, .ret (.status .kUnderflow []))
    else (q, .goto (.peekCopy (segments q.mask head size) []))
  | .peekCopy ((off, len) :: segs) out =>
    (q, .goto (.peekCopy segs (out ++ copyOut q.buffer off len)))
  | .peekCopy [] out => (q, .ret (.status .kOk out))

/-- The step from `q` to `q'` changed an index or the buffer. -/
def touchedBy (q q' : SpscQueue) : Bool :=
  decide (q'.buffer ≠ q.buffer ∨ q'.tailIdx ≠ q.tailIdx ∨ q'.headIdx ≠ q.headIdx)

end SpscQueue

@[simp] theorem SpscQueue.touchedBy_self (q : SpscQueue) : q.touchedBy q = false := by
  simp [SpscQueue.touchedBy]

@[simp] theorem SpscQueue.touchedBy_headCachedSnapshot (q : SpscQueue) (x : Size) :
    q.touchedBy { q with headCachedSnapshot := x } = false := by simp [SpscQueue.touchedBy]

@[simp] theorem SpscQueue.touchedBy_tailCachedSnapshot (q : SpscQueue) (x : Size) :
    q.touchedBy { q with tailCachedSnapshot := x } = false := by simp [SpscQueue.touchedBy]

/-! ## The system -/

/-- A queue with its two threads, and the calls that have returned. -/
structure SpscSystem where
  queue : SpscQueue
  producer : Thread Call ProducerPc := .idle
  consumer : Thread Call ConsumerPc := .idle
  returned : List (Return Call Reply) := []

/-- A thread starts a call, or takes a step of the call it is in. -/
inductive SpscAction
  | produce (call : Call)
  | consume (call : Call)
  | stepProducer
  | stepConsumer

/-- The sizes of a started call are valid. -/
def SpscAction.Valid : SpscAction → Prop
  | .produce call => call.Valid
  | .consume call => call.Valid
  | _ => True

instance : DecidablePred SpscAction.Valid
  | .produce call | .consume call => inferInstanceAs (Decidable call.Valid)
  | .stepProducer | .stepConsumer => inferInstanceAs (Decidable True)

namespace SpscSystem

/-- The producer goes where its step leads. -/
def producerGoes (s : SpscSystem) (call : Call) (touched : Bool) (q : SpscQueue)
    (next : Next ProducerPc Reply) : SpscSystem :=
  { s with
    queue := q
    producer := next.thread call touched
    returned := s.returned ++ next.returned call touched }

/-- The consumer goes where its step leads. -/
def consumerGoes (s : SpscSystem) (call : Call) (touched : Bool) (q : SpscQueue)
    (next : Next ConsumerPc Reply) : SpscSystem :=
  { s with
    queue := q
    consumer := next.thread call touched
    returned := s.returned ++ next.returned call touched }

/-- **One step of the system.** -/
def step (s : SpscSystem) : SpscAction → Option SpscSystem
  | .produce call =>
    match s.producer with
    | .idle => (s.queue.beginProducer call).map (s.producerGoes call false s.queue)
    | .inside _ _ _ => none
  | .consume call =>
    match s.consumer with
    | .idle => (s.queue.beginConsumer call).map (s.consumerGoes call false s.queue)
    | .inside _ _ _ => none
  | .stepProducer =>
    match s.producer with
    | .idle => none
    | .inside call pc touched =>
      let r := s.queue.stepProducer pc
      some (s.producerGoes call (touched || s.queue.touchedBy r.1) r.1 r.2)
  | .stepConsumer =>
    match s.consumer with
    | .idle => none
    | .inside call pc touched =>
      let r := s.queue.stepConsumer pc
      some (s.consumerGoes call (touched || s.queue.touchedBy r.1) r.1 r.2)

/-- The calls that have returned and their replies, in the order of their returns. -/
def history (s : SpscSystem) : List (Call × Reply) := s.returned.map Return.entry

/-- The bytes of the successful enqueues so far. -/
def enqueued (s : SpscSystem) : List Byte := Stream.pushed s.history

/-- The bytes of the successful dequeues so far. -/
def dequeued (s : SpscSystem) : List Byte := Stream.popped s.history

/-- **What a step of the system can do.** -/
inductive Stepped (s : SpscSystem) : SpscAction → SpscSystem → Prop
  | produce {call : Call} {next : Next ProducerPc Reply} (hidle : s.producer = .idle)
      (hbegin : s.queue.beginProducer call = some next) :
      Stepped s (.produce call) (s.producerGoes call false s.queue next)
  | consume {call : Call} {next : Next ConsumerPc Reply} (hidle : s.consumer = .idle)
      (hbegin : s.queue.beginConsumer call = some next) :
      Stepped s (.consume call) (s.consumerGoes call false s.queue next)
  | stepProducer {call : Call} {pc : ProducerPc} {touched : Bool}
      (hpc : s.producer = .inside call pc touched) :
      Stepped s .stepProducer
        (s.producerGoes call (touched || s.queue.touchedBy (s.queue.stepProducer pc).1)
          (s.queue.stepProducer pc).1 (s.queue.stepProducer pc).2)
  | stepConsumer {call : Call} {pc : ConsumerPc} {touched : Bool}
      (hpc : s.consumer = .inside call pc touched) :
      Stepped s .stepConsumer
        (s.consumerGoes call (touched || s.queue.touchedBy (s.queue.stepConsumer pc).1)
          (s.queue.stepConsumer pc).1 (s.queue.stepConsumer pc).2)

theorem stepped_of_step {s s' : SpscSystem} {a : SpscAction} (hstep : s.step a = some s') :
    Stepped s a s' := by
  cases a with
  | produce call =>
    cases hp : s.producer with
    | idle =>
      simp only [SpscSystem.step, hp] at hstep
      obtain ⟨next, hbegin, rfl⟩ := Option.map_eq_some_iff.mp hstep
      exact .produce hp hbegin
    | inside _ _ _ => simp [SpscSystem.step, hp] at hstep
  | consume call =>
    cases hc : s.consumer with
    | idle =>
      simp only [SpscSystem.step, hc] at hstep
      obtain ⟨next, hbegin, rfl⟩ := Option.map_eq_some_iff.mp hstep
      exact .consume hc hbegin
    | inside _ _ _ => simp [SpscSystem.step, hc] at hstep
  | stepProducer =>
    cases hp : s.producer with
    | idle => simp [SpscSystem.step, hp] at hstep
    | inside call pc touched =>
      simp only [SpscSystem.step, hp] at hstep
      exact Option.some.inj hstep ▸ .stepProducer hp
  | stepConsumer =>
    cases hc : s.consumer with
    | idle => simp [SpscSystem.step, hc] at hstep
    | inside call pc touched =>
      simp only [SpscSystem.step, hc] at hstep
      exact Option.some.inj hstep ▸ .stepConsumer hc

end SpscSystem

/-! ## A call alone

When the other thread does not move, the steps of a call are the call of `SpscQueue`. -/

namespace SpscQueue

variable {q : SpscQueue} {call : Call} {buffer : List Byte}

/-- The copies of an enqueue, and its return. -/
theorem finishes_copyIn {r : EnqueueRequest} {tail : Size} {segs : List (ℕ × ℕ)} {rest : List Byte}
    (hbuf : q.buffer = some buffer) :
    Finishes stepProducer (.status .kOk [])
      { q with
        buffer := some (writeSegments buffer segs rest)
        tailIdx := tail + r.total
        tailCached := tail + r.total } q (.goto (.copy r tail segs rest)) := by
  induction segs generalizing q rest buffer with
  | nil =>
    refine .goto ?_
    rw [writeSegments, ← hbuf]
    exact .ret
  | cons seg segs ih =>
    obtain ⟨off, len⟩ := seg
    have hcopy : copyIn q.buffer off len rest = some (splice buffer off (rest.take len)) := by
      rw [hbuf, copyIn, Option.map_some]
    exact .goto (ih (q := { q with buffer := copyIn q.buffer off len rest }) hcopy)

/-- **The copies out of the buffer**, at a place of the call that gathers them, and the return. -/
theorem finishes_gather {pc : List (ℕ × ℕ) → List Byte → ConsumerPc} {done : SpscQueue}
    (hret : ∀ out, stepConsumer q (pc [] out) = (done, .ret (.status .kOk out)))
    (hcopy : ∀ off len segs out, stepConsumer q (pc ((off, len) :: segs) out)
      = (q, .goto (pc segs (out ++ copyOut q.buffer off len))))
    (hbuf : q.buffer = some buffer) (segs : List (ℕ × ℕ)) (out : List Byte) :
    Finishes stepConsumer (.status .kOk (out ++ readSegments buffer segs)) done q
      (.goto (pc segs out)) := by
  induction segs generalizing out with
  | nil =>
    refine .goto ?_
    rw [hret, readSegments, List.append_nil]
    exact .ret
  | cons seg segs ih =>
    obtain ⟨off, len⟩ := seg
    have hslice : copyOut q.buffer off len = slice buffer off len := by
      rw [hbuf, copyOut, Option.getD_some]
    refine .goto ?_
    rw [hcopy, hslice, readSegments, ← List.append_assoc]
    exact ih (out ++ slice buffer off len)

/-- The copies of a dequeue, and its return. -/
theorem finishes_copyOut {r : DequeueRequest} {head : Size} {segs : List (ℕ × ℕ)}
    (out : List Byte) (hbuf : q.buffer = some buffer) :
    Finishes stepConsumer (.status .kOk (out ++ readSegments buffer segs))
      { q with headIdx := head + r.total, headCached := head + r.total } q
      (.goto (.copy r head segs out)) :=
  finishes_gather (fun _ => rfl) (fun _ _ _ _ => rfl) hbuf segs out

/-- The copies of a peek, and its return. -/
theorem finishes_peekCopy {segs : List (ℕ × ℕ)} (out : List Byte) (hbuf : q.buffer = some buffer) :
    Finishes stepConsumer (.status .kOk (out ++ readSegments buffer segs)) q q
      (.goto (.peekCopy segs out)) :=
  finishes_gather (fun _ => rfl) (fun _ _ _ _ => rfl) hbuf segs out

theorem finishes_enqueueSized {r : EnqueueRequest} (hbuf : q.buffer = some buffer) :
    Finishes stepProducer (.status (q.enqueueSized buffer r.total r.sizes r.data).1 [])
      (q.enqueueSized buffer r.total r.sizes r.data).2 q (.goto (.loadTail r)) := by
  refine .goto ?_
  rw [stepProducer, enqueueSized]
  by_cases hsnap : q.capacity - (q.tailIdx - q.headCachedSnapshot) < r.total
  · rw [if_pos hsnap, if_pos hsnap]
    refine .goto ?_
    rw [stepProducer]
    by_cases hover : q.capacity - (q.tailIdx - q.headIdx) < r.total
    · rw [if_pos hover, if_pos hover]
      exact .ret
    · rw [if_neg hover, if_neg hover]
      exact finishes_copyIn hbuf
  · rw [if_neg hsnap, if_neg hsnap]
    exact finishes_copyIn hbuf

/-- A successful dequeue from its copies on. -/
theorem finishes_consume {r : DequeueRequest} (hbuf : q.buffer = some buffer) :
    Finishes stepConsumer (.status .kOk (q.consume buffer r.total r.sizes).1)
      (q.consume buffer r.total r.sizes).2 q
      (.goto (.copy r q.headIdx (bulkSegments q.mask q.headIdx r.sizes) [])) :=
  finishes_copyOut [] hbuf

theorem finishes_dequeueSized {r : DequeueRequest} (hbuf : q.buffer = some buffer) :
    Finishes stepConsumer
      (.status (q.dequeueSized buffer r.total r.sizes).1
        (q.dequeueSized buffer r.total r.sizes).2.1)
      (q.dequeueSized buffer r.total r.sizes).2.2 q (.goto (.loadHead r)) := by
  refine .goto ?_
  rw [stepConsumer, dequeueSized]
  by_cases hsnap : q.tailCachedSnapshot - q.headIdx < r.total
  · rw [if_pos hsnap, if_pos hsnap]
    refine .goto ?_
    rw [stepConsumer]
    by_cases hunder : q.tailIdx - q.headIdx < r.total
    · rw [if_pos hunder, if_pos hunder]
      exact .ret
    · rw [if_neg hunder, if_neg hunder]
      exact finishes_consume (q := { q with tailCachedSnapshot := q.tailIdx }) hbuf
  · rw [if_neg hsnap, if_neg hsnap]
    exact finishes_consume hbuf

/-- **An enqueue alone** is the enqueue of `SpscQueue`. -/
theorem finishes_enqueue (q : SpscQueue) (hcall : call.IsEnqueue) :
    ∃ next, q.beginProducer call = some next
      ∧ Finishes stepProducer (q.call call).1 (q.call call).2 q next := by
  cases call with
  | enqueueBytes data =>
    refine ⟨_, rfl, ?_⟩
    rw [SpscQueue.call, enqueueBytes]
    cases hbuf : q.buffer with
    | none => exact .ret
    | some buffer =>
      by_cases hd : sizeWord data = 0#64
      · simp only [hd]
        exact .ret
      · have := finishes_enqueueSized (r := ⟨sizeWord data, [sizeWord data], data⟩) hbuf
        simpa [hd, Next.ofCheck] using this
  | enqueueBulk pieces =>
    refine ⟨_, rfl, ?_⟩
    rw [SpscQueue.call, enqueueBulk]
    cases hbuf : q.buffer with
    | none => exact .ret
    | some buffer =>
      by_cases hp : pieces = []
      · simp only [hp]
        exact .ret
      · by_cases hd : totalSize (pieces.map sizeWord) = 0#64
        · simp only [hp, hd]
          exact .ret
        · have := finishes_enqueueSized
            (r := ⟨totalSize (pieces.map sizeWord), pieces.map sizeWord, pieces.flatten⟩) hbuf
          simpa [hp, hd, Next.ofCheck] using this
  | _ => cases hcall

/-- **A dequeue or a peek alone** is that of `SpscQueue`. -/
theorem finishes_dequeue (q : SpscQueue) (hcall : call.IsDequeue ∨ ∃ n, call = .peekBytes n) :
    ∃ next, q.beginConsumer call = some next
      ∧ Finishes stepConsumer (q.call call).1 (q.call call).2 q next := by
  cases call with
  | dequeueBytes n =>
    refine ⟨_, rfl, ?_⟩
    rw [SpscQueue.call, dequeueBytes]
    cases hbuf : q.buffer with
    | none => exact .ret
    | some buffer =>
      by_cases hn : n = 0#64
      · simp only [hn]
        exact .ret
      · have := finishes_dequeueSized (r := ⟨n, [n]⟩) hbuf
        simpa [hn, Next.ofCheck] using this
  | dequeueBulk ns =>
    refine ⟨_, rfl, ?_⟩
    rw [SpscQueue.call, dequeueBulk]
    cases hbuf : q.buffer with
    | none => exact .ret
    | some buffer =>
      by_cases hp : ns = []
      · simp only [hp]
        exact .ret
      · by_cases hn : totalSize ns = 0#64
        · simp only [hp, hn]
          exact .ret
        · have := finishes_dequeueSized (r := ⟨totalSize ns, ns⟩) hbuf
          simpa [hp, hn, Next.ofCheck] using this
  | peekBytes n =>
    refine ⟨_, rfl, ?_⟩
    rw [SpscQueue.call, peekBytes]
    cases hbuf : q.buffer with
    | none => exact .ret
    | some buffer =>
      by_cases hn : n = 0#64
      · simp only [hn]
        exact .ret
      · dsimp only
        rw [if_neg hn, if_neg hn, if_neg (show ¬ (some buffer).isSome = false by simp)]
        refine .goto (.goto ?_)
        rw [stepConsumer, stepConsumer]
        by_cases hunder : n > q.tailIdx - q.headIdx
        · rw [if_pos hunder, if_pos hunder]
          exact .ret
        · rw [if_neg hunder, if_neg hunder]
          exact finishes_peekCopy [] hbuf
  | _ => simp [Call.IsDequeue] at hcall

end SpscQueue

end Femtolog
