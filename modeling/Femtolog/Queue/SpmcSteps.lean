import Mathlib.Logic.Function.Basic
import Femtolog.Foundations.Runs
import Femtolog.Queue.Spmc

/-!
# Queue/SpmcSteps — `SpmcQueue` in steps, with a producer and any number of consumers

The threads take their calls in steps, one atomic operation or one `memcpy` each: a consumer adds to
the head, loads the tail, and then either takes back what it added or copies and tries the commit
index until it succeeds.

The 64-bit indices are the low bits of unbounded counts, and a ticket names a position of the
stream.  The system keeps these positions beside the queue (`Positions`); no step of a thread reads
them.
-/

namespace Femtolog

/-! ## The two programs -/

/-- Where the producer is in a call. -/
inductive SpmcProducerPc
  | loadTail (r : EnqueueRequest)
  | loadCommit (r : EnqueueRequest) (tail : Size)
  | copy (r : EnqueueRequest) (tail : Size) (segs : List (ℕ × ℕ)) (rest : List Byte)

/-- Where a consumer is in a call.  At `copy` it has been admitted; with no run left to copy it is
at the compare-exchange of the commit index. -/
inductive SpmcConsumerPc
  | claim (r : DequeueRequest)
  | loadTail (r : DequeueRequest) (ticket : Size)
  | rewind (r : DequeueRequest) (ticket : Size)
  | copy (r : DequeueRequest) (ticket : Size) (segs : List (ℕ × ℕ)) (out : List Byte)
  | peekLoadCommit (size : Size)
  | peekLoadTail (size commit : Size)
  | peekCopy (segs : List (ℕ × ℕ)) (out : List Byte)

namespace SpmcQueue

/-- The start of `enqueue_bytes` and `enqueue_bulk`. -/
def beginProducer (q : SpmcQueue) (call : Call) : Option (Next SpmcProducerPc Reply) :=
  (checkEnqueue q.buffer.isSome call).map (.ofCheck .loadTail)

/-- One step of `enqueue_bytes` or `enqueue_bulk`. -/
def stepProducer (q : SpmcQueue) : SpmcProducerPc → SpmcQueue × Next SpmcProducerPc Reply
  | .loadTail r => (q, .goto (.loadCommit r q.tailIdx))
  | .loadCommit r tail =>
    if q.capacity - (tail - q.commitIdx) < r.total then (q, .ret (.status .kOverflow []))
    else (q, .goto (.copy r tail (bulkSegments q.mask tail r.sizes) r.data))
  | .copy r tail ((off, len) :: segs) rest =>
    ({ q with buffer := copyIn q.buffer off len rest }, .goto (.copy r tail segs (rest.drop len)))
  | .copy r tail [] _ => ({ q with tailIdx := tail + r.total }, .ret (.status .kOk []))

/-- The start of `dequeue_bytes`, `dequeue_bulk` and `peek_bytes`. -/
def beginConsumer (q : SpmcQueue) : Call → Option (Next SpmcConsumerPc Reply)
  | .peekBytes size =>
    some <|
      if q.buffer.isSome = false then .ret (.status .kUninitialized [])
      else if size = 0#64 then .ret (.status .kSizeIsZero [])
      else .goto (.peekLoadCommit size)
  | call => (checkDequeue q.buffer.isSome call).map (.ofCheck .claim)

/-- One step of `dequeue_bytes`, `dequeue_bulk` or `peek_bytes`.  A compare-exchange that fails,
also spuriously, is tried again from the same ticket. -/
def stepConsumer (q : SpmcQueue) : SpmcConsumerPc → SpmcQueue × Next SpmcConsumerPc Reply
  | .claim r => ({ q with headIdx := q.headIdx + r.total }, .goto (.loadTail r q.headIdx))
  | .loadTail r ticket =>
    if q.tailIdx - ticket < r.total then (q, .goto (.rewind r ticket))
    else (q, .goto (.copy r ticket (bulkSegments q.mask ticket r.sizes) []))
  | .rewind r _ => ({ q with headIdx := q.headIdx - r.total }, .ret (.status .kUnderflow []))
  | .copy r ticket ((off, len) :: segs) out =>
    (q, .goto (.copy r ticket segs (out ++ copyOut q.buffer off len)))
  | .copy r ticket [] out =>
    if q.commitIdx = ticket then
      ({ q with commitIdx := ticket + r.total }, .ret (.status .kOk out))
    else (q, .goto (.copy r ticket [] out))
  | .peekLoadCommit size => (q, .goto (.peekLoadTail size q.commitIdx))
  | .peekLoadTail size commit =>
    if q.tailIdx - commit < size then (q, .ret (.status .kUnderflow []))
    else (q, .goto (.peekCopy (segments q.mask commit size) []))
  | .peekCopy ((off, len) :: segs) out =>
    (q, .goto (.peekCopy segs (out ++ copyOut q.buffer off len)))
  | .peekCopy [] out => (q, .ret (.status .kOk out))

end SpmcQueue

/-! ## Positions -/

/-- The positions the head and the commit index name, the position of each consumer's last ticket,
and the consumers that hold a ticket, in the order in which they took it. -/
structure Positions (ι : Type) where
  head : ℕ
  commit : ℕ
  ticket : ι → ℕ
  line : List ι

variable {ι : Type} [DecidableEq ι]

/-- The positions after a step of consumer `i`. -/
def Positions.after (p : Positions ι) (i : ι) (q : SpmcQueue) : SpmcConsumerPc → Positions ι
  | .claim r =>
    { p with
      head := p.head + r.total.toNat
      ticket := Function.update p.ticket i p.head
      line := p.line ++ [i] }
  | .rewind r _ => { p with head := p.head - r.total.toNat, line := p.line.erase i }
  | .copy r ticket [] _ =>
    if q.commitIdx = ticket then
      { p with commit := p.commit + r.total.toNat, line := p.line.erase i }
    else p
  | _ => p

/-- A claim takes its ticket at the head. -/
theorem Positions.ticket_claim_self (p : Positions ι) (i : ι) (q : SpmcQueue)
    (r : DequeueRequest) : (p.after i q (.claim r)).ticket i = p.head :=
  Function.update_self i _ _

theorem Positions.ticket_claim_of_ne (p : Positions ι) {i j : ι} (hj : j ≠ i) (q : SpmcQueue)
    (r : DequeueRequest) : (p.after i q (.claim r)).ticket j = p.ticket j :=
  Function.update_of_ne hj _ _

/-- …and gets in line, where it was not. -/
theorem Positions.nodup_claim {p : Positions ι} {i : ι} (hnodup : p.line.Nodup)
    (hfree : i ∉ p.line) (q : SpmcQueue) (r : DequeueRequest) :
    (p.after i q (.claim r)).line.Nodup := by
  have hline : (p.after i q (.claim r)).line = p.line.concat i := List.concat_eq_append.symm
  exact hline ▸ List.Nodup.concat hfree hnodup

/-! ## The system -/

/-- A call that has returned, with the position of its ticket. -/
structure Receipt where
  call : Call
  reply : Reply
  ticket : ℕ

/-- The bytes a successful dequeue delivered, and the range of positions they were asked from. -/
structure Delivery where
  ticket : ℕ
  size : ℕ
  bytes : List Byte

/-- What a returned call delivered. -/
def Receipt.delivery : Receipt → Option Delivery
  | ⟨.dequeueBytes n, .status .kOk bytes, ticket⟩ => some ⟨ticket, n.toNat, bytes⟩
  | ⟨.dequeueBulk ns, .status .kOk bytes, ticket⟩ =>
    some ⟨ticket, (ns.map BitVec.toNat).sum, bytes⟩
  | _ => none

/-- A queue, its threads (each with the call it is in), and the calls that have returned. -/
structure SpmcSystem (ι : Type) where
  queue : SpmcQueue
  producer : Option (Call × SpmcProducerPc)
  consumers : ι → Option (Call × SpmcConsumerPc)
  positions : Positions ι
  returned : List Receipt

/-- A thread starts a call, or takes a step of the call it is in. -/
inductive SpmcAction (ι : Type)
  | produce (call : Call)
  | consume (i : ι) (call : Call)
  | stepProducer
  | stepConsumer (i : ι)

/-- The sizes of a started call are valid. -/
def SpmcAction.Valid : SpmcAction ι → Prop
  | .produce call => call.Valid
  | .consume _ call => call.Valid
  | _ => True

instance : DecidablePred (SpmcAction.Valid (ι := ι))
  | .produce call | .consume _ call => inferInstanceAs (Decidable call.Valid)
  | .stepProducer | .stepConsumer _ => inferInstanceAs (Decidable True)

/-- Where a thread goes by a step of its call. -/
def Next.inside {Pc : Type} (call : Call) : Next Pc Reply → Option (Call × Pc)
  | .goto pc => some (call, pc)
  | .ret _ => none

/-- What a step of a call adds to the calls that have returned. -/
def Next.receipts {Pc : Type} (call : Call) (ticket : ℕ) : Next Pc Reply → List Receipt
  | .goto _ => []
  | .ret reply => [⟨call, reply, ticket⟩]

namespace SpmcSystem

/-- A queue at the start, no thread in a call. -/
def init (q : SpmcQueue) : SpmcSystem ι where
  queue := q
  producer := none
  consumers _ := none
  positions := ⟨0, 0, fun _ => 0, []⟩
  returned := []

/-- The calls that have returned and their replies, in the order of their returns. -/
def history (s : SpmcSystem ι) : List (Call × Reply) := s.returned.map fun r => (r.call, r.reply)

/-- The enqueued stream. -/
def enqueued (s : SpmcSystem ι) : List Byte := Stream.pushed s.history

/-- What the dequeues that returned `kOk` delivered, in the order of their returns. -/
def delivered (s : SpmcSystem ι) : List Delivery := s.returned.filterMap Receipt.delivery

/-- The producer goes where its step leads. -/
def producerGoes (s : SpmcSystem ι) (call : Call) (q : SpmcQueue)
    (next : Next SpmcProducerPc Reply) : SpmcSystem ι :=
  { s with
    queue := q
    producer := next.inside call
    returned := s.returned ++ next.receipts call s.enqueued.length }

/-- Consumer `i` goes where its step leads. -/
def consumerGoes (s : SpmcSystem ι) (i : ι) (call : Call) (q : SpmcQueue) (p : Positions ι)
    (next : Next SpmcConsumerPc Reply) : SpmcSystem ι :=
  { s with
    queue := q
    consumers := Function.update s.consumers i (next.inside call)
    positions := p
    returned := s.returned ++ next.receipts call (s.positions.ticket i) }

/-- **One step of the system.** -/
def step (s : SpmcSystem ι) : SpmcAction ι → Option (SpmcSystem ι)
  | .produce call =>
    match s.producer with
    | none => (s.queue.beginProducer call).map (s.producerGoes call s.queue)
    | some _ => none
  | .consume i call =>
    match s.consumers i with
    | none => (s.queue.beginConsumer call).map (s.consumerGoes i call s.queue s.positions)
    | some _ => none
  | .stepProducer =>
    match s.producer with
    | none => none
    | some (call, pc) =>
      let r := s.queue.stepProducer pc
      some (s.producerGoes call r.1 r.2)
  | .stepConsumer i =>
    match s.consumers i with
    | none => none
    | some (call, pc) =>
      let r := s.queue.stepConsumer pc
      some (s.consumerGoes i call r.1 (s.positions.after i s.queue pc) r.2)

/-- **What a step of the system can do.** -/
inductive Stepped (s : SpmcSystem ι) : SpmcAction ι → SpmcSystem ι → Prop
  | produce {call : Call} {next : Next SpmcProducerPc Reply} (hidle : s.producer = none)
      (hbegin : s.queue.beginProducer call = some next) :
      Stepped s (.produce call) (s.producerGoes call s.queue next)
  | consume {i : ι} {call : Call} {next : Next SpmcConsumerPc Reply} (hidle : s.consumers i = none)
      (hbegin : s.queue.beginConsumer call = some next) :
      Stepped s (.consume i call) (s.consumerGoes i call s.queue s.positions next)
  | stepProducer {call : Call} {pc : SpmcProducerPc} (hpc : s.producer = some (call, pc)) :
      Stepped s .stepProducer
        (s.producerGoes call (s.queue.stepProducer pc).1 (s.queue.stepProducer pc).2)
  | stepConsumer {i : ι} {call : Call} {pc : SpmcConsumerPc}
      (hpc : s.consumers i = some (call, pc)) :
      Stepped s (.stepConsumer i)
        (s.consumerGoes i call (s.queue.stepConsumer pc).1 (s.positions.after i s.queue pc)
          (s.queue.stepConsumer pc).2)

theorem stepped_of_step {s s' : SpmcSystem ι} {a : SpmcAction ι} (hstep : s.step a = some s') :
    Stepped s a s' := by
  cases a with
  | produce call =>
    cases hp : s.producer with
    | none =>
      simp only [SpmcSystem.step, hp] at hstep
      obtain ⟨next, hbegin, rfl⟩ := Option.map_eq_some_iff.mp hstep
      exact .produce hp hbegin
    | some _ => simp [SpmcSystem.step, hp] at hstep
  | consume i call =>
    cases hc : s.consumers i with
    | none =>
      simp only [SpmcSystem.step, hc] at hstep
      obtain ⟨next, hbegin, rfl⟩ := Option.map_eq_some_iff.mp hstep
      exact .consume hc hbegin
    | some _ => simp [SpmcSystem.step, hc] at hstep
  | stepProducer =>
    cases hp : s.producer with
    | none => simp [SpmcSystem.step, hp] at hstep
    | some inside =>
      simp only [SpmcSystem.step, hp] at hstep
      exact Option.some.inj hstep ▸ .stepProducer hp
  | stepConsumer i =>
    cases hc : s.consumers i with
    | none => simp [SpmcSystem.step, hc] at hstep
    | some inside =>
      simp only [SpmcSystem.step, hc] at hstep
      exact Option.some.inj hstep ▸ .stepConsumer hc

end SpmcSystem

end Femtolog
