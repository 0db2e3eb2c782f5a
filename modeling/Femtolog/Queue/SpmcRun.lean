import Mathlib.Data.List.Nodup
import Femtolog.Foundations.Tickets
import Femtolog.Queue.SpmcSteps

/-!
# Queue/SpmcRun — what `SpmcQueue` delivers under many consumers

A consumer decides by `tail - ticket < size`, a wrapping subtraction.  As long as no consumer makes
this check with a ticket beyond the tail, every dequeue that returns `kOk` delivers the enqueued
bytes at its own positions, and no position is delivered twice (`SpmcSystem.delivers_stream`); the
claims that were given up may leave gaps, but nothing behind a gap is ever delivered.  A check with
a ticket beyond the tail wraps around and admits the consumer to bytes nobody has enqueued
(`SpmcSystem.delivers_unpublished`).
-/

namespace Femtolog

open SpmcQueue

variable {ι : Type} [DecidableEq ι]

/-- **The indices of a queue of capacity `2^k` name these positions**, the tail `T`. -/
structure SpmcQueue.Named (q : SpmcQueue) (k : ℕ) (p : Positions ι) (T : ℕ) : Prop where
  k_lt : k < 64
  capacity_eq : q.capacity = BitVec.ofNat 64 (2 ^ k)
  mask_eq : q.mask = BitVec.ofNat 64 (2 ^ k) - 1#64
  tail_eq : q.tailIdx = BitVec.ofNat 64 T
  head_eq : q.headIdx = BitVec.ofNat 64 p.head
  commit_eq : q.commitIdx = BitVec.ofNat 64 p.commit
  commit_le : p.commit ≤ T
  tail_le : T ≤ p.commit + 2 ^ k

/-- The consumer holds a ticket. -/
def SpmcConsumerPc.Holds : SpmcConsumerPc → Prop
  | .loadTail _ _ => True
  | .rewind _ _ => True
  | .copy _ _ _ _ => True
  | _ => False

/-- The check the consumer is about to make, if it is about to make one, does not wrap around: the
ticket's position `p` is not beyond the tail `T`, or the check refuses it all the same. -/
def SpmcConsumerPc.ChecksInStream (q : SpmcQueue) (p T : ℕ) : SpmcConsumerPc → Prop
  | .loadTail r ticket => p ≤ T ∨ q.tailIdx - ticket < r.total
  | _ => True

instance (q : SpmcQueue) (p T : ℕ) : DecidablePred (SpmcConsumerPc.ChecksInStream q p T)
  | .loadTail r ticket => inferInstanceAs (Decidable (p ≤ T ∨ q.tailIdx - ticket < r.total))
  | .claim _ | .rewind _ _ | .copy _ _ _ _ => inferInstanceAs (Decidable True)
  | .peekLoadCommit _ | .peekLoadTail _ _ | .peekCopy _ _ => inferInstanceAs (Decidable True)

/-- The consumer holds a ticket after the step. -/
def Next.Holds : Next SpmcConsumerPc Reply → Prop
  | .goto pc => pc.Holds
  | .ret _ => False

namespace SpmcSystem

/-- Consumer `i` holds a ticket. -/
def Holds (s : SpmcSystem ι) (i : ι) : Prop := ∃ call pc, s.consumers i = some (call, pc) ∧ pc.Holds

/-- The number of positions consumer `i` asks for in its call. -/
def size (s : SpmcSystem ι) (i : ι) : ℕ :=
  match s.consumers i with
  | some (call, _) => call.asked
  | none => 0

/-! ## What the threads know -/

section Knowledge

variable (q : SpmcQueue) (k : ℕ) (stream : List Byte)

/-- **What the producer knows where it stands**, with the commit index at `commit`. -/
inductive ProducerAt (commit : ℕ) : Option (Call × SpmcProducerPc) → Prop
  | idle (hkeep : Keeps q.buffer k stream commit) : ProducerAt commit none
  | loadTail {call : Call} {r : EnqueueRequest} (hcall : call.IsEnqueue) (hr : r.Brings call.data)
      (hkeep : Keeps q.buffer k stream commit) : ProducerAt commit (some (call, .loadTail r))
  | loadCommit {call : Call} {r : EnqueueRequest} (hcall : call.IsEnqueue)
      (hr : r.Brings call.data) (hkeep : Keeps q.buffer k stream commit) :
      ProducerAt commit (some (call, .loadCommit r q.tailIdx))
  | copy {call : Call} {r : EnqueueRequest} {segs : List (ℕ × ℕ)} {done rest : List Byte}
      (hcall : call.IsEnqueue) (hr : r.Brings call.data) (hdata : call.data = done ++ rest)
      (hroom : stream.length + call.data.length ≤ commit + 2 ^ k)
      (hcov : Covers (2 ^ k) (stream ++ done).length segs rest.length)
      (hkeep : Keeps q.buffer k (stream ++ done) commit) :
      ProducerAt commit (some (call, .copy r q.tailIdx segs rest))

/-- **What a consumer knows where it stands**, with its ticket at position `p`.  Once it is admitted
the bytes it is after are in the stream. -/
inductive ConsumerAt (p : ℕ) : Option (Call × SpmcConsumerPc) → Prop
  | idle : ConsumerAt p none
  | claim {call : Call} {r : DequeueRequest} (hcall : call.IsDequeue) (hr : r.Takes call.asked) :
      ConsumerAt p (some (call, .claim r))
  | loadTail {call : Call} {r : DequeueRequest} (hcall : call.IsDequeue)
      (hr : r.Takes call.asked) : ConsumerAt p (some (call, .loadTail r (BitVec.ofNat 64 p)))
  | rewind {call : Call} {r : DequeueRequest} (hcall : call.IsDequeue) (hr : r.Takes call.asked) :
      ConsumerAt p (some (call, .rewind r (BitVec.ofNat 64 p)))
  | copy {call : Call} {r : DequeueRequest} {segs : List (ℕ × ℕ)} {out : List Byte}
      (hcall : call.IsDequeue) (hr : r.Takes call.asked) (hdata : p + call.asked ≤ stream.length)
      (hread : Reading (2 ^ k) stream p call.asked segs out) :
      ConsumerAt p (some (call, .copy r (BitVec.ofNat 64 p) segs out))
  | peekLoadCommit {n : Size} : ConsumerAt p (some (.peekBytes n, .peekLoadCommit n))
  | peekLoadTail {n commit : Size} : ConsumerAt p (some (.peekBytes n, .peekLoadTail n commit))
  | peekCopy {n : Size} {segs : List (ℕ × ℕ)} {out : List Byte} :
      ConsumerAt p (some (.peekBytes n, .peekCopy segs out))

end Knowledge

section Frames

variable {q q' : SpmcQueue} {k commit commit' p : ℕ} {stream : List Byte}

/-- The consumers' steps leave what the producer knows. -/
theorem ProducerAt.frame {t : Option (Call × SpmcProducerPc)}
    (h : ProducerAt q k stream commit t) (hbuffer : q'.buffer = q.buffer)
    (htail : q'.tailIdx = q.tailIdx) (hcommit : commit ≤ commit') :
    ProducerAt q' k stream commit' t := by
  cases h with
  | idle hkeep => exact .idle (hbuffer ▸ hkeep.mono hcommit)
  | loadTail hcall hr hkeep => exact .loadTail hcall hr (hbuffer ▸ hkeep.mono hcommit)
  | loadCommit hcall hr hkeep =>
    rw [← htail]
    exact .loadCommit hcall hr (hbuffer ▸ hkeep.mono hcommit)
  | copy hcall hr hdata hroom hcov hkeep =>
    rw [← htail]
    exact .copy hcall hr hdata (by omega) hcov (hbuffer ▸ hkeep.mono hcommit)

/-- The producer's steps leave what a consumer knows. -/
theorem ConsumerAt.frame {t : Option (Call × SpmcConsumerPc)} (h : ConsumerAt k stream p t)
    (more : List Byte) : ConsumerAt k (stream ++ more) p t := by
  have hlen : stream.length ≤ (stream ++ more).length := by simp
  cases h with
  | idle => exact .idle
  | claim hcall hr => exact .claim hcall hr
  | loadTail hcall hr => exact .loadTail hcall hr
  | rewind hcall hr => exact .rewind hcall hr
  | copy hcall hr hdata hread =>
    exact .copy hcall hr (by omega) (hread.append_right (by omega) more)
  | peekLoadCommit => exact .peekLoadCommit
  | peekLoadTail => exact .peekLoadTail
  | peekCopy => exact .peekCopy

/-- Whatever the producer is copying, the published stream is in the buffer. -/
theorem ProducerAt.keeps {t : Option (Call × SpmcProducerPc)} (h : ProducerAt q k stream commit t) :
    ∃ done, Keeps q.buffer k (stream ++ done) commit := by
  have hnil : stream ++ [] = stream := List.append_nil stream
  cases h with
  | idle hkeep | loadTail _ _ hkeep | loadCommit _ _ hkeep => exact ⟨[], hnil.symm ▸ hkeep⟩
  | copy _ _ _ _ _ hkeep => exact ⟨_, hkeep⟩

end Frames

/-! ## The invariant -/

/-- **The invariant**: the outstanding claims are lined up from the commit position on, each thread
is right about what it knows, and what was delivered lies behind the commit position. -/
structure Inv (k : ℕ) (s : SpmcSystem ι) : Prop where
  named : s.queue.Named k s.positions s.enqueued.length
  producer : ProducerAt s.queue k s.enqueued s.positions.commit s.producer
  consumer : ∀ i, ConsumerAt k s.enqueued (s.positions.ticket i) (s.consumers i)
  nodup : s.positions.line.Nodup
  mem_line : ∀ i, i ∈ s.positions.line ↔ s.Holds i
  lined : Lined s.positions.ticket s.size s.positions.commit s.positions.line s.positions.head
  behind : ∀ d ∈ s.delivered, d.ticket + d.size ≤ s.positions.commit
    ∧ d.bytes = slice s.enqueued d.ticket d.size
  disjoint : s.delivered.Pairwise fun d d' => d.ticket + d.size ≤ d'.ticket

/-! ## Moves

What one step changes and what it leaves: a move of the producer, and a move of one consumer. -/

section Receipts

variable {call : Call}

/-- What an enqueue returns is no delivery. -/
theorem delivery_of_isEnqueue (h : call.IsEnqueue) (reply : Reply) (t : ℕ) :
    Receipt.delivery ⟨call, reply, t⟩ = none := by
  cases call with
  | enqueueBytes _ | enqueueBulk _ => rfl
  | _ => cases h

theorem delivery_of_isDequeue (h : call.IsDequeue) (bytes : List Byte) (t : ℕ) :
    Receipt.delivery ⟨call, .status .kOk bytes, t⟩ = some ⟨t, call.asked, bytes⟩ := by
  cases call with
  | dequeueBytes _ | dequeueBulk _ => rfl
  | _ => cases h

theorem delivery_of_fails {status : QueueStatus} (hne : status ≠ .kOk) (bytes : List Byte) (t : ℕ) :
    Receipt.delivery ⟨call, .status status bytes, t⟩ = none := by
  cases status with
  | kOk => exact absurd rfl hne
  | _ => cases call <;> rfl

end Receipts

section Moves

variable {s : SpmcSystem ι} {i j : ι} {call : Call} {q : SpmcQueue} {p : Positions ι} {k : ℕ}

theorem size_of_ne (next : Next SpmcConsumerPc Reply) (hj : j ≠ i) :
    (s.consumerGoes i call q p next).size j = s.size j := by
  simp [size, consumerGoes, Function.update_of_ne hj]

theorem size_of_goto (pc : SpmcConsumerPc) :
    (s.consumerGoes i call q p (.goto pc)).size i = call.asked := by
  simp [size, consumerGoes, Next.inside]

theorem holds_of_ne (next : Next SpmcConsumerPc Reply) (hj : j ≠ i) :
    (s.consumerGoes i call q p next).Holds j ↔ s.Holds j := by
  simp [Holds, consumerGoes, Function.update_of_ne hj]

theorem holds_self_iff (next : Next SpmcConsumerPc Reply) :
    (s.consumerGoes i call q p next).Holds i ↔ next.Holds := by
  cases next <;> simp [Holds, consumerGoes, Next.inside, Next.Holds]

/-- Who moves gets in line with its ticket, and leaves it without. -/
theorem mem_line_consumerGoes {next : Next SpmcConsumerPc Reply}
    (hmem : ∀ j, j ∈ s.positions.line ↔ s.Holds j) (hself : i ∈ p.line ↔ next.Holds)
    (hothers : ∀ j, j ≠ i → (j ∈ p.line ↔ j ∈ s.positions.line)) (j : ι) :
    j ∈ p.line ↔ (s.consumerGoes i call q p next).Holds j := by
  rcases eq_or_ne j i with rfl | hj
  · exact hself.trans (holds_self_iff next).symm
  · exact (hothers j hj).trans ((hmem j).trans (holds_of_ne next hj).symm)

/-- A line without consumer `i` is not moved by its moves. -/
theorem along_of_free {R : ℕ → ℕ → Prop} {c e : ℕ} {L : List ι}
    (h : Along R s.positions.ticket s.size c L e) (hfree : i ∉ L)
    (hticket : ∀ j, j ≠ i → p.ticket j = s.positions.ticket j)
    (next : Next SpmcConsumerPc Reply) :
    Along R p.ticket (s.consumerGoes i call q p next).size c L e :=
  h.congr fun j hj => by
    have hji : j ≠ i := fun heq => hfree (heq ▸ hj)
    exact ⟨hticket j hji, size_of_ne next hji⟩

/-- A move of consumer `i` inside its call does not move the line. -/
theorem along_of_stays {R : ℕ → ℕ → Prop} {c e : ℕ} {L : List ι}
    (h : Along R s.positions.ticket s.size c L e) {next : Next SpmcConsumerPc Reply}
    (hself : i ∈ L → next.Holds) (hsize : i ∈ L → s.size i = call.asked) :
    Along R s.positions.ticket (s.consumerGoes i call q p next).size c L e := by
  refine h.congr fun j hj => ⟨rfl, ?_⟩
  by_cases hji : j = i
  · subst hji
    have hnext := hself hj
    cases next with
    | goto pc => rw [size_of_goto, hsize hj]
    | ret reply => cases hnext
  · exact size_of_ne next hji

omit [DecidableEq ι] in
theorem enqueued_producer_goto (pc : SpmcProducerPc) :
    (s.producerGoes call q (.goto pc)).enqueued = s.enqueued := by
  have hret : (s.producerGoes call q (.goto pc)).returned = s.returned :=
    List.append_nil s.returned
  rw [enqueued, history, hret]
  rfl

omit [DecidableEq ι] in
theorem enqueued_producer_ret (reply : Reply) :
    (s.producerGoes call q (.ret reply)).enqueued
      = s.enqueued ++ Stream.pushedBy (call, reply) := by
  have hhist : (s.producerGoes call q (.ret reply)).history = s.history ++ [(call, reply)] :=
    List.map_append
  rw [enqueued, hhist, Stream.pushed_snoc]
  rfl

omit [DecidableEq ι] in
theorem delivered_producer_goto (pc : SpmcProducerPc) :
    (s.producerGoes call q (.goto pc)).delivered = s.delivered := by
  simp [delivered, producerGoes, Next.receipts]

omit [DecidableEq ι] in
theorem delivered_producer_ret (hcall : call.IsEnqueue) (reply : Reply) :
    (s.producerGoes call q (.ret reply)).delivered = s.delivered := by
  simp [delivered, producerGoes, Next.receipts, delivery_of_isEnqueue hcall]

/-- A consumer enqueues nothing. -/
theorem enqueued_consumerGoes (hdata : call.data = []) (next : Next SpmcConsumerPc Reply) :
    (s.consumerGoes i call q p next).enqueued = s.enqueued := by
  cases next with
  | goto pc =>
    have hret : (s.consumerGoes i call q p (.goto pc)).returned = s.returned :=
      List.append_nil s.returned
    rw [enqueued, history, hret]
    rfl
  | ret reply =>
    have hhist : (s.consumerGoes i call q p (.ret reply)).history
        = s.history ++ [(call, reply)] := List.map_append
    rw [enqueued, hhist, Stream.pushed_snoc, Stream.pushedBy_of_data_nil hdata, List.append_nil]
    rfl

/-- A consumer delivers what its call returns. -/
theorem delivered_consumerGoes (next : Next SpmcConsumerPc Reply) :
    (s.consumerGoes i call q p next).delivered = s.delivered
      ++ (next.receipts call (s.positions.ticket i)).filterMap Receipt.delivery :=
  List.filterMap_append

omit [DecidableEq ι] in
/-- A step inside an enqueue. -/
theorem Inv.producer_goto (h : Inv k s) {pc : SpmcProducerPc}
    (hnamed : q.Named k s.positions s.enqueued.length)
    (hat : ProducerAt q k s.enqueued s.positions.commit (some (call, pc))) :
    Inv k (s.producerGoes call q (.goto pc)) := by
  have henq : (s.producerGoes call q (.goto pc)).enqueued = s.enqueued :=
    enqueued_producer_goto pc
  have hdel : (s.producerGoes call q (.goto pc)).delivered = s.delivered :=
    delivered_producer_goto pc
  refine ⟨?_, ?_, ?_, h.nodup, h.mem_line, h.lined, ?_, ?_⟩
  · rw [henq]
    exact hnamed
  · rw [henq]
    exact hat
  · rw [henq]
    exact h.consumer
  · rw [hdel, henq]
    exact h.behind
  · rw [hdel]
    exact h.disjoint

omit [DecidableEq ι] in
/-- **The return of an enqueue** that has put `data` into the stream. -/
theorem Inv.producer_ret (h : Inv k s) {reply : Reply} {data : List Byte} (hcall : call.IsEnqueue)
    (hpush : Stream.pushedBy (call, reply) = data)
    (hnamed : q.Named k s.positions (s.enqueued ++ data).length)
    (hkeep : Keeps q.buffer k (s.enqueued ++ data) s.positions.commit) :
    Inv k (s.producerGoes call q (.ret reply)) := by
  have henq : (s.producerGoes call q (.ret reply)).enqueued = s.enqueued ++ data :=
    hpush ▸ enqueued_producer_ret reply
  have hdel : (s.producerGoes call q (.ret reply)).delivered = s.delivered :=
    delivered_producer_ret hcall reply
  refine ⟨?_, ?_, ?_, h.nodup, h.mem_line, h.lined, ?_, ?_⟩
  · rw [henq]
    exact hnamed
  · rw [henq]
    exact .idle hkeep
  · rw [henq]
    exact fun i => (h.consumer i).frame data
  · rw [hdel, henq]
    intro d hd
    obtain ⟨hend, hbytes⟩ := h.behind d hd
    have hcommit := h.named.commit_le
    exact ⟨hend, by rw [hbytes, slice_append_of_le (by omega)]⟩
  · rw [hdel]
    exact h.disjoint

/-- **A move of consumer `i`** to the positions `p`, delivering `new`. -/
theorem Inv.consumer_moves (h : Inv k s) {next : Next SpmcConsumerPc Reply} (new : List Delivery)
    (hnamed : q.Named k p s.enqueued.length) (hbuffer : q.buffer = s.queue.buffer)
    (htail : q.tailIdx = s.queue.tailIdx) (hcommit : s.positions.commit ≤ p.commit)
    (hticket : ∀ j, j ≠ i → p.ticket j = s.positions.ticket j)
    (hat : ConsumerAt k s.enqueued (p.ticket i) (next.inside call)) (hnodup : p.line.Nodup)
    (hself : i ∈ p.line ↔ next.Holds)
    (hothers : ∀ j, j ≠ i → (j ∈ p.line ↔ j ∈ s.positions.line))
    (hlined : Lined p.ticket (s.consumerGoes i call q p next).size p.commit p.line p.head)
    (hdata : call.data = [])
    (hnew : (next.receipts call (s.positions.ticket i)).filterMap Receipt.delivery = new)
    (hpast : ∀ d ∈ new, s.positions.commit ≤ d.ticket ∧ d.ticket + d.size ≤ p.commit
      ∧ d.bytes = slice s.enqueued d.ticket d.size)
    (hone : new.length ≤ 1) : Inv k (s.consumerGoes i call q p next) := by
  have henq : (s.consumerGoes i call q p next).enqueued = s.enqueued :=
    enqueued_consumerGoes hdata next
  have hdel : (s.consumerGoes i call q p next).delivered = s.delivered ++ new :=
    hnew ▸ delivered_consumerGoes next
  refine ⟨?_, ?_, ?_, hnodup, ?_, hlined, ?_, ?_⟩
  · rw [henq]
    exact hnamed
  · rw [henq]
    exact h.producer.frame hbuffer htail hcommit
  · intro j
    rw [henq]
    by_cases hj : j = i
    · subst hj
      simpa [consumerGoes] using hat
    · have hcons := h.consumer j
      rw [← hticket j hj] at hcons
      simpa [consumerGoes, Function.update_of_ne hj] using hcons
  · exact mem_line_consumerGoes h.mem_line hself hothers
  · rw [hdel, henq]
    intro d hd
    rcases List.mem_append.mp hd with hd | hd
    · obtain ⟨hend, hbytes⟩ := h.behind d hd
      exact ⟨hend.trans hcommit, hbytes⟩
    · exact (hpast d hd).2
  · rw [hdel, List.pairwise_append]
    refine ⟨h.disjoint, ?_, fun d hd d' hd' => ?_⟩
    · match new, hone with
      | [], _ => exact .nil
      | [d], _ => exact List.pairwise_singleton _ d
    · exact (h.behind d hd).1.trans (hpast d' hd').1

/-- **A move that leaves the positions**, inside the call or failing. -/
theorem Inv.consumer_stays (h : Inv k s) {next : Next SpmcConsumerPc Reply}
    (hat : ConsumerAt k s.enqueued (s.positions.ticket i) (next.inside call))
    (hself : s.Holds i ↔ next.Holds)
    (hsize : s.Holds i → s.size i = call.asked) (hdata : call.data = [])
    (hnew : (next.receipts call (s.positions.ticket i)).filterMap Receipt.delivery = []) :
    Inv k (s.consumerGoes i call s.queue s.positions next) := by
  refine h.consumer_moves [] h.named rfl rfl (le_refl _) (fun _ _ => rfl) hat h.nodup
    ((h.mem_line i).trans hself) (fun _ _ => Iff.rfl) ?_ hdata hnew (by simp) (by simp)
  exact along_of_stays h.lined (fun hi => hself.mp ((h.mem_line i).mp hi))
    fun hi => hsize ((h.mem_line i).mp hi)

end Moves

/-! ## Steps of the producer -/

section ProducerSteps

variable {s : SpmcSystem ι} {k : ℕ} {call : Call}

omit [DecidableEq ι] in
/-- An enqueue that fails leaves everything as it is. -/
theorem Inv.producer_fails (h : Inv k s) (hcall : call.IsEnqueue)
    (hkeep : Keeps s.queue.buffer k s.enqueued s.positions.commit) {status : QueueStatus}
    (hne : status ≠ .kOk) :
    Inv k (s.producerGoes call s.queue (.ret (.status status []))) := by
  have hpush : Stream.pushedBy (call, .status status []) = [] := by
    cases status with
    | kOk => exact absurd rfl hne
    | _ => rfl
  refine h.producer_ret hcall hpush ?_ ?_
  · rw [List.append_nil]
    exact h.named
  · rwa [List.append_nil]

omit [DecidableEq ι] in
/-- **The producer's steps keep the invariant.** -/
theorem Inv.stepProducer (h : Inv k s) {pc : SpmcProducerPc} (hpc : s.producer = some (call, pc)) :
    Inv k (s.producerGoes call (s.queue.stepProducer pc).1 (s.queue.stepProducer pc).2) := by
  have hi := h.named
  have hcommit := hi.commit_le
  have hT := hi.tail_le
  have hat := h.producer
  rw [hpc] at hat
  cases hat with
  | loadTail hcall hr hkeep => exact h.producer_goto hi (.loadCommit hcall hr hkeep)
  | @loadCommit call r hcall hr hkeep =>
    have hroom := lacks_room_iff hi.k_lt hcommit hT hr.lt
    rw [← hi.capacity_eq, ← hi.tail_eq, ← hi.commit_eq, ← hr.total_eq] at hroom
    rw [SpmcQueue.stepProducer]
    by_cases hover : s.queue.capacity - (s.queue.tailIdx - s.queue.commitIdx) < r.total
    · rw [if_pos hover]
      exact h.producer_fails hcall hkeep (by decide)
    · rw [if_neg hover]
      rw [hroom] at hover
      have hcov : Covers (2 ^ k) s.enqueued.length
          (bulkSegments s.queue.mask s.queue.tailIdx r.sizes) call.data.length := by
        rw [hi.tail_eq]
        exact hr.covers hi.k_lt hi.mask_eq _ (by omega)
      have hnil : s.enqueued ++ [] = s.enqueued := List.append_nil _
      have hdata : call.data = [] ++ r.data := hr.data_eq.symm
      refine h.producer_goto hi (.copy hcall hr hdata (by omega) ?_ ?_)
      · rwa [hnil, hr.data_eq]
      · rwa [hnil]
  | @copy call r segs done rest hcall hr hdata hroom hcov hkeep =>
    have hsum : call.data.length = done.length + rest.length := by
      rw [hdata, List.length_append]
    cases segs with
    | nil =>
      obtain rfl : rest = [] := List.eq_nil_of_length_eq_zero hcov.eq_zero_of_nil
      obtain rfl : call.data = done := by rw [hdata, List.append_nil]
      refine h.producer_ret hcall (pushedBy_of_isEnqueue hcall []).1 ?_ hkeep
      rw [List.length_append]
      refine { hi with tail_eq := ?_, commit_le := by omega, tail_le := hroom }
      rw [BitVec.ofNat_add, ← hi.tail_eq, ← hr.total_eq]
      rfl
    | cons seg segs =>
      obtain ⟨off, len⟩ := seg
      obtain ⟨hkeep', hcov', _⟩ := hkeep.copyIn hcov (by rw [List.length_append]; omega)
      rw [List.append_assoc] at hkeep' hcov'
      refine h.producer_goto { hi with } (.copy hcall hr ?_ hroom hcov' hkeep')
      rw [List.append_assoc, List.take_append_drop, hdata]

omit [DecidableEq ι] in
/-- **A call of the producer begins with the invariant.** -/
theorem Inv.beginProducer (h : Inv k s) (hidle : s.producer = none) (hv : call.Valid)
    {next : Next SpmcProducerPc Reply} (hbegin : s.queue.beginProducer call = some next) :
    Inv k (s.producerGoes call s.queue next) := by
  have hat := h.producer
  rw [hidle] at hat
  obtain ⟨hkeep⟩ := hat
  obtain ⟨x, hx, rfl⟩ := Option.map_eq_some_iff.mp hbegin
  rw [hkeep.isSome] at hx
  obtain ⟨hcall, ⟨rfl, _⟩ | ⟨r, rfl, hr⟩⟩ := checkEnqueue_spec hx hv
  · exact h.producer_fails hcall hkeep (by decide)
  · exact h.producer_goto h.named (.loadTail hcall hr hkeep)

end ProducerSteps

/-! ## Steps of a consumer -/

section ConsumerSteps

variable {s : SpmcSystem ι} {i : ι} {k : ℕ} {call : Call}

omit [DecidableEq ι] in
theorem size_of_inside {pc : SpmcConsumerPc} (hpc : s.consumers i = some (call, pc)) :
    s.size i = call.asked := by
  rw [size, hpc]

omit [DecidableEq ι] in
theorem holds_iff {pc : SpmcConsumerPc} (hpc : s.consumers i = some (call, pc)) :
    s.Holds i ↔ pc.Holds := by
  simp [Holds, hpc]

omit [DecidableEq ι] in
/-- Who holds a ticket asks for something. -/
theorem Inv.size_pos (h : Inv k s) (hi : i ∈ s.positions.line) : 0 < s.size i := by
  obtain ⟨call, pc, hpc, hholds⟩ := (h.mem_line i).mp hi
  have hat := h.consumer i
  rw [hpc] at hat
  rw [size_of_inside hpc]
  cases hat with
  | loadTail _ hr | rewind _ hr | copy _ hr _ _ => exact Nat.pos_of_ne_zero hr.ne_zero
  | claim _ _ | peekLoadCommit | peekLoadTail | peekCopy => cases hholds

/-- **A ticket is taken** at the head, behind all others. -/
theorem Inv.claims (h : Inv k s) {r : DequeueRequest} (hpc : s.consumers i = some (call, .claim r))
    (hcall : call.IsDequeue) (hr : r.Takes call.asked) :
    Inv k (s.consumerGoes i call { s.queue with headIdx := s.queue.headIdx + r.total }
      (s.positions.after i s.queue (.claim r)) (.goto (.loadTail r s.queue.headIdx))) := by
  have hi := h.named
  have hfree : i ∉ s.positions.line := fun hmem => (holds_iff hpc).mp ((h.mem_line i).mp hmem)
  have htotal : r.total.toNat = call.asked := hr.toNat_total
  have hticket (j : ι) (hj : j ≠ i) :
      (s.positions.after i s.queue (.claim r)).ticket j = s.positions.ticket j :=
    s.positions.ticket_claim_of_ne hj _ r
  have hself := s.positions.ticket_claim_self i s.queue r
  refine h.consumer_moves [] ?_ rfl rfl (le_refl _) hticket ?_ ?_ ?_ ?_ ?_
    (data_nil_of_isDequeue hcall) rfl (by simp) (by simp)
  · refine { hi with head_eq := ?_ }
    rw [Positions.after, htotal, BitVec.ofNat_add, ← hr.total_eq, hi.head_eq]
  · rw [hself, hi.head_eq]
    exact .loadTail hcall hr
  · exact Positions.nodup_claim h.nodup hfree _ r
  · simp [Positions.after, Next.Holds, SpmcConsumerPc.Holds]
  · intro j hj
    simp [Positions.after, hj]
  · have hline : Lined _ (s.consumerGoes i call
        { s.queue with headIdx := s.queue.headIdx + r.total }
        (s.positions.after i s.queue (.claim r))
        (.goto (.loadTail r s.queue.headIdx))).size _ _ _ :=
      along_of_free h.lined hfree hticket _
    have hsnoc := hline.snoc (Nat.le_of_eq hself.symm)
    rwa [size_of_goto, ← htotal] at hsnoc

/-- **A ticket is given back**: the head goes down by its size, wherever in the line it was. -/
theorem Inv.rewinds (h : Inv k s) {r : DequeueRequest} {ticket : Size}
    (hpc : s.consumers i = some (call, .rewind r ticket)) (hcall : call.IsDequeue)
    (hr : r.Takes call.asked) :
    Inv k (s.consumerGoes i call { s.queue with headIdx := s.queue.headIdx - r.total }
      (s.positions.after i s.queue (.rewind r ticket)) (.ret (.status .kUnderflow []))) := by
  have hi := h.named
  have hmem : i ∈ s.positions.line := (h.mem_line i).mpr ((holds_iff hpc).mpr trivial)
  have htotal : r.total.toNat = call.asked := hr.toNat_total
  have hsize : s.size i = call.asked := size_of_inside hpc
  have hle := h.lined.size_le hmem
  refine h.consumer_moves [] ?_ rfl rfl (le_refl _) (fun _ _ => rfl) .idle (h.nodup.erase i) ?_ ?_
    ?_ (data_nil_of_isDequeue hcall) ?_ (by simp) (by simp)
  · refine { hi with head_eq := ?_ }
    rw [Positions.after, htotal, ← ofNat_sub_ofNat (by omega), ← hr.total_eq, hi.head_eq]
  · simp [Positions.after, Next.Holds, h.nodup.not_mem_erase]
  · intro j hj
    simp [Positions.after, List.mem_erase_of_ne hj]
  · have hline := h.lined.erase hmem
    rw [hsize, ← htotal] at hline
    exact along_of_free (q := s.queue) hline h.nodup.not_mem_erase (fun _ _ => rfl) _
  · simp [Next.receipts, delivery_of_fails]

omit [DecidableEq ι] in
/-- A claim whose turn it is by the words is the oldest by the positions too: they are less than a
capacity apart. -/
theorem Inv.ticket_eq_commit (h : Inv k s) (hmem : i ∈ s.positions.line)
    (hend : s.positions.ticket i ≤ s.enqueued.length)
    (hturn : s.queue.commitIdx = BitVec.ofNat 64 (s.positions.ticket i)) :
    s.positions.ticket i = s.positions.commit := by
  have hT := h.named.tail_le
  have hpow : 2 ^ k < 2 ^ 64 := Nat.pow_lt_pow_right (by norm_num) h.named.k_lt
  rw [h.named.commit_eq] at hturn
  exact (eq_of_ofNat_eq (h.lined.le_start hmem) (by omega) hturn).symm

/-- **The oldest claim is committed**, and its bytes delivered. -/
theorem Inv.commits (h : Inv k s) {r : DequeueRequest} {out : List Byte}
    (hpc : s.consumers i
      = some (call, .copy r (BitVec.ofNat 64 (s.positions.ticket i)) [] out))
    (hcall : call.IsDequeue) (hr : r.Takes call.asked)
    (hdata : s.positions.ticket i + call.asked ≤ s.enqueued.length)
    (hread : Reading (2 ^ k) s.enqueued (s.positions.ticket i) call.asked [] out)
    (hturn : s.queue.commitIdx = BitVec.ofNat 64 (s.positions.ticket i)) :
    Inv k (s.consumerGoes i call
      { s.queue with commitIdx := BitVec.ofNat 64 (s.positions.ticket i) + r.total }
      (s.positions.after i s.queue (.copy r (BitVec.ofNat 64 (s.positions.ticket i)) [] out))
      (.ret (.status .kOk out))) := by
  have hi := h.named
  have hT := hi.tail_le
  have hmem : i ∈ s.positions.line := (h.mem_line i).mpr ((holds_iff hpc).mpr trivial)
  have htotal : r.total.toNat = call.asked := hr.toNat_total
  have hsize : s.size i = call.asked := size_of_inside hpc
  have hle := h.lined.le_start hmem
  have hstart : s.positions.ticket i = s.positions.commit :=
    h.ticket_eq_commit hmem (by omega) hturn
  have hafter : s.positions.after i s.queue
      (.copy r (BitVec.ofNat 64 (s.positions.ticket i)) [] out)
      = { s.positions with
          commit := s.positions.commit + r.total.toNat
          line := s.positions.line.erase i } := by
    rw [Positions.after, if_pos hturn]
  rw [hafter]
  refine h.consumer_moves [⟨s.positions.ticket i, call.asked, out⟩] ?_ rfl rfl
    (Nat.le_add_right _ _) (fun _ _ => rfl) .idle (h.nodup.erase i) ?_ ?_ ?_
    (data_nil_of_isDequeue hcall) ?_ ?_ (by simp)
  · refine { hi with commit_eq := ?_, commit_le := ?_, tail_le := ?_ }
    · rw [htotal, BitVec.ofNat_add, ← hr.total_eq, hstart]
    · dsimp only
      omega
    · dsimp only
      omega
  · simp [Next.Holds, h.nodup.not_mem_erase]
  · intro j hj
    simp [List.mem_erase_of_ne hj]
  · have hline := h.lined.serve hmem (fun j hj => h.size_pos hj) hstart
    rw [hsize, ← htotal] at hline
    exact along_of_free (q := s.queue) hline h.nodup.not_mem_erase (fun _ _ => rfl) _
  · simp [Next.receipts, delivery_of_isDequeue hcall]
  · intro d hd
    obtain rfl := List.mem_singleton.mp hd
    refine ⟨hle, ?_, hread.done⟩
    dsimp only
    omega

/-- The check of consumer `i`, if it is about to make one, does not wrap around. -/
def ChecksInStream (s : SpmcSystem ι) (i : ι) : Prop :=
  ∀ inside ∈ s.consumers i,
    inside.2.ChecksInStream s.queue (s.positions.ticket i) s.enqueued.length

instance (s : SpmcSystem ι) (i : ι) : Decidable (s.ChecksInStream i) :=
  inferInstanceAs (Decidable (∀ inside ∈ s.consumers i, _))

/-- **A consumer's steps keep the invariant**, as long as its check does not wrap around. -/
theorem Inv.stepConsumer (h : Inv k s) {pc : SpmcConsumerPc}
    (hpc : s.consumers i = some (call, pc)) (hcheck : s.ChecksInStream i) :
    Inv k (s.consumerGoes i call (s.queue.stepConsumer pc).1 (s.positions.after i s.queue pc)
      (s.queue.stepConsumer pc).2) := by
  have hi := h.named
  have hT := hi.tail_le
  obtain ⟨done, hkeep⟩ := h.producer.keeps
  have hat := h.consumer i
  rw [hpc] at hat
  have hsize : s.Holds i → s.size i = call.asked := fun _ => size_of_inside hpc
  have hholds := holds_iff hpc
  cases hat with
  | @claim call r hcall hr => exact h.claims hpc hcall hr
  | @loadTail call r hcall hr =>
    have hmem : i ∈ s.positions.line := (h.mem_line i).mpr (hholds.mpr trivial)
    have hle := h.lined.le_start hmem
    rw [SpmcQueue.stepConsumer]
    by_cases hunder : s.queue.tailIdx - BitVec.ofNat 64 (s.positions.ticket i) < r.total
    · rw [if_pos hunder]
      exact h.consumer_stays (.rewind hcall hr) hholds hsize
        (data_nil_of_isDequeue hcall) rfl
    · rw [if_neg hunder]
      have hpos := (hcheck _ hpc).resolve_right hunder
      rw [hi.tail_eq, hr.total_eq, lacks_data_iff hi.k_lt hpos (by omega) hr.lt] at hunder
      have hcov := hr.covers hi.k_lt hi.mask_eq (s.positions.ticket i) (by omega)
      exact h.consumer_stays (.copy hcall hr (by omega) (.start hcov))
        hholds hsize (data_nil_of_isDequeue hcall) rfl
  | @rewind call r hcall hr => exact h.rewinds hpc hcall hr
  | @copy call r segs out hcall hr hdata hread =>
    have hmem : i ∈ s.positions.line := (h.mem_line i).mpr (hholds.mpr trivial)
    cases segs with
    | nil =>
      by_cases hturn : s.queue.commitIdx = BitVec.ofNat 64 (s.positions.ticket i)
      · have hnext := h.commits hpc hcall hr hdata hread hturn
        rwa [SpmcQueue.stepConsumer, if_pos hturn]
      · rw [SpmcQueue.stepConsumer, Positions.after, if_neg hturn, if_neg hturn]
        exact h.consumer_stays (.copy hcall hr hdata hread)
          hholds hsize (data_nil_of_isDequeue hcall) rfl
    | cons seg segs =>
      obtain ⟨off, len⟩ := seg
      exact h.consumer_stays
        (.copy hcall hr hdata (hkeep.copyOut hread
          ((h.lined.le_start hmem).trans (Nat.le_add_right _ _)) hdata))
        hholds hsize (data_nil_of_isDequeue hcall) rfl
  | @peekLoadCommit n =>
    exact h.consumer_stays .peekLoadTail hholds hsize rfl rfl
  | @peekLoadTail n commit =>
    rw [SpmcQueue.stepConsumer]
    by_cases hunder : s.queue.tailIdx - commit < n
    · rw [if_pos hunder]
      exact h.consumer_stays .idle hholds hsize rfl rfl
    · rw [if_neg hunder]
      exact h.consumer_stays .peekCopy hholds hsize rfl rfl
  | @peekCopy n segs out =>
    cases segs with
    | nil => exact h.consumer_stays .idle hholds hsize rfl rfl
    | cons seg segs =>
      obtain ⟨off, len⟩ := seg
      exact h.consumer_stays .peekCopy hholds hsize rfl rfl

/-- **A call of a consumer begins with the invariant.** -/
theorem Inv.beginConsumer (h : Inv k s) (hidle : s.consumers i = none) (hv : call.Valid)
    {next : Next SpmcConsumerPc Reply} (hbegin : s.queue.beginConsumer call = some next) :
    Inv k (s.consumerGoes i call s.queue s.positions next) := by
  obtain ⟨done, hkeep⟩ := h.producer.keeps
  have hfree : ¬ s.Holds i := by simp [Holds, hidle]
  have hself {next : Next SpmcConsumerPc Reply} (hnext : ¬ next.Holds) : s.Holds i ↔ next.Holds :=
    iff_of_false hfree hnext
  have hsize : s.Holds i → s.size i = call.asked := fun hholds => absurd hholds hfree
  have hdequeue (hmap : (checkDequeue s.queue.buffer.isSome call).map
      (Next.ofCheck SpmcConsumerPc.claim) = some next) :
      Inv k (s.consumerGoes i call s.queue s.positions next) := by
    obtain ⟨x, hx, rfl⟩ := Option.map_eq_some_iff.mp hmap
    rw [hkeep.isSome] at hx
    obtain ⟨hcall, ⟨rfl, _⟩ | ⟨r, rfl, hr⟩⟩ := checkDequeue_spec hx hv
    · exact h.consumer_stays .idle (hself id) hsize (data_nil_of_isDequeue hcall)
        (by simp [Next.ofCheck, Next.receipts, delivery_of_fails])
    · exact h.consumer_stays (.claim hcall hr) (hself id) hsize (data_nil_of_isDequeue hcall) rfl
  cases call with
  | peekBytes n =>
    obtain rfl := Option.some.inj hbegin
    rw [hkeep.isSome, if_neg (by decide)]
    by_cases hn : n = 0#64
    · rw [if_pos hn]
      exact h.consumer_stays .idle (hself id) hsize rfl rfl
    · rw [if_neg hn]
      exact h.consumer_stays .peekLoadCommit (hself id) hsize rfl rfl
  | _ => exact hdequeue hbegin

end ConsumerSteps

/-! ## Runs -/

/-- The check a step makes, if it makes one, does not wrap around. -/
def InStream (s : SpmcSystem ι) : SpmcAction ι → Prop
  | .stepConsumer i => s.ChecksInStream i
  | _ => True

instance (s : SpmcSystem ι) : DecidablePred s.InStream
  | .stepConsumer i => inferInstanceAs (Decidable (s.ChecksInStream i))
  | .produce _ | .consume _ _ | .stepProducer => inferInstanceAs (Decidable True)

section Runs

variable {s s' : SpmcSystem ι} {k : ℕ} {a : SpmcAction ι}

/-- **Every step whose check does not wrap around keeps the invariant.** -/
theorem Inv.step (h : Inv k s) (hv : a.Valid) (hcheck : s.InStream a) (hstep : s.step a = some s') :
    Inv k s' := by
  cases stepped_of_step hstep with
  | produce hidle hbegin => exact h.beginProducer hidle hv hbegin
  | consume hidle hbegin => exact h.beginConsumer hidle hv hbegin
  | stepProducer hpc => exact h.stepProducer hpc
  | stepConsumer hpc => exact h.stepConsumer hpc hcheck

omit [DecidableEq ι] in
/-- A reserved queue starts with the invariant. -/
theorem inv_of_reserve {mem : Allocator} {n : Size} {q : SpmcQueue}
    (hq : SpmcQueue.reserve mem n = some q) (hbuf : q.buffer.isSome) :
    ∃ k, Inv k (init q : SpmcSystem ι) := by
  obtain ⟨k, _, _, hi, hkeep⟩ := SpmcQueue.settled_of_reserve hq hbuf
  refine ⟨k, ?_⟩
  exact
    { named := { hi with commit_le := le_refl 0 }
      producer := .idle hkeep
      consumer := fun _ => .idle
      nodup := .nil
      mem_line := by simp [init, Holds]
      lined := rfl
      behind := by simp [init, delivered]
      disjoint := .nil }

end Runs

/-- **What the dequeues deliver**: an admitted consumer copies enqueued bytes, a dequeue that
returned `kOk` delivered the stream at its positions, and no two of them share a position. -/
structure DeliversStream (s : SpmcSystem ι) : Prop where
  published : ∀ {i call r ticket segs out},
    s.consumers i = some (call, .copy r ticket segs out) →
      s.positions.ticket i + call.asked ≤ s.enqueued.length
  bytes : ∀ d ∈ s.delivered, d.ticket + d.size ≤ s.enqueued.length
    ∧ d.bytes = slice s.enqueued d.ticket d.size
  disjoint : s.delivered.Pairwise fun d d' =>
    d.ticket + d.size ≤ d'.ticket ∨ d'.ticket + d'.size ≤ d.ticket

section Delivery

variable {s s' : SpmcSystem ι} {k : ℕ} {a : SpmcAction ι}

omit [DecidableEq ι] in
/-- The invariant is enough. -/
theorem Inv.delivers (h : Inv k s) : s.DeliversStream := by
  refine ⟨?_, ?_, h.disjoint.imp .inl⟩
  · intro i call r ticket segs out hpc
    have hat := h.consumer i
    rw [hpc] at hat
    cases hat with
    | copy _ _ hdata _ => exact hdata
  · intro d hd
    obtain ⟨hend, hbytes⟩ := h.behind d hd
    exact ⟨hend.trans h.named.commit_le, hbytes⟩

/-- A check that wraps around admits a consumer to bytes nobody has enqueued. -/
theorem inStream_of_delivers (hstep : s.step a = some s') (hdel : s'.DeliversStream) :
    s.InStream a := by
  cases a with
  | produce _ | consume _ _ | stepProducer => trivial
  | stepConsumer i =>
  rintro ⟨call, pc⟩ (hpc : s.consumers i = some (call, pc))
  cases pc with
  | claim _ | rewind _ _ | copy _ _ _ _ | peekLoadCommit _ | peekLoadTail _ _ | peekCopy _ _ =>
    trivial
  | loadTail r ticket =>
  refine or_iff_not_imp_right.mpr fun hunder => ?_
  simp only [step, hpc, SpmcQueue.stepConsumer, if_neg hunder] at hstep
  obtain rfl := Option.some.inj hstep
  have hpub := hdel.published (Function.update_self i _ s.consumers)
  have henq : enqueued (s.consumerGoes i call s.queue s.positions
      (.goto (.copy r ticket (bulkSegments s.queue.mask ticket r.sizes) []))) = s.enqueued := by
    simp [enqueued, history, consumerGoes, Next.receipts]
  exact (Nat.le_add_right _ _).trans (henq ▸ hpub)

/-- **`SpmcQueue` delivers the stream as long as no check wraps around, and no longer**: in a state
reached without one everything delivered is right, and the next step keeps it so exactly when it
does not pass a check with a ticket beyond the tail. -/
theorem delivers_stream {mem : Allocator} {n : Size} {q : SpmcQueue}
    (hq : SpmcQueue.reserve mem n = some q) (hbuf : q.buffer.isSome)
    (hrun : Reaches SpmcSystem.step (fun s a => a.Valid ∧ s.InStream a) (init q) s) :
    s.DeliversStream ∧ ∀ {a s'}, a.Valid → s.step a = some s' →
      (s'.DeliversStream ↔ s.InStream a) := by
  obtain ⟨k, hinit⟩ := inv_of_reserve (ι := ι) hq hbuf
  have h : Inv k s := hrun.invariant hinit fun h hg hstep => h.step hg.1 hg.2 hstep
  exact ⟨h.delivers, fun hv hstep =>
    ⟨inStream_of_delivers hstep, fun hcheck => (h.step hv hcheck hstep).delivers⟩⟩

/-- Two consumers claim four bytes each from an empty queue.  The second one's check wraps around,
and it copies before the producer enqueues: it delivers four zeros for `5, 6, 7, 8`. -/
theorem delivers_unpublished : ∃ q s, SpmcQueue.reserve .zeroed 8#64 = some q
    ∧ execute SpmcSystem.step (fun _ a => decide a.Valid) (init q : SpmcSystem Bool)
        [.consume false (.dequeueBytes 4#64), .consume true (.dequeueBytes 4#64),
          .stepConsumer false, .stepConsumer true, .stepConsumer true, .stepConsumer true,
          .produce (.enqueueBytes [1, 2, 3, 4, 5, 6, 7, 8]),
          .stepProducer, .stepProducer, .stepProducer, .stepProducer,
          .stepConsumer false, .stepConsumer false, .stepConsumer false, .stepConsumer true]
      = some s
    ∧ (∃ d ∈ s.delivered, d.bytes ≠ slice s.enqueued d.ticket d.size)
    ∧ ¬ s.DeliversStream := by
  obtain ⟨s, hs, hout⟩ : ∃ s, execute SpmcSystem.step (fun _ a => decide a.Valid)
      (init { buffer := some (List.replicate 72 0), capacity := 8#64, mask := 7#64 })
      [.consume false (.dequeueBytes 4#64), .consume true (.dequeueBytes 4#64),
        .stepConsumer false, .stepConsumer true, .stepConsumer true, .stepConsumer true,
        .produce (.enqueueBytes [1, 2, 3, 4, 5, 6, 7, 8]),
        .stepProducer, .stepProducer, .stepProducer, .stepProducer,
        .stepConsumer false, .stepConsumer false, .stepConsumer false, .stepConsumer true]
      = some s ∧ (s.delivered, s.enqueued)
        = ([⟨0, 4, [1, 2, 3, 4]⟩, ⟨4, 4, [0, 0, 0, 0]⟩], [1, 2, 3, 4, 5, 6, 7, 8]) :=
    Option.map_eq_some_iff.mp rfl
  obtain ⟨hdel, henq⟩ := Prod.mk.inj hout
  have hwrong : ∃ d ∈ s.delivered, d.bytes ≠ slice s.enqueued d.ticket d.size := by
    rw [hdel, henq]
    exact ⟨⟨4, 4, [0, 0, 0, 0]⟩, by simp, by decide⟩
  refine ⟨_, s, rfl, hs, hwrong, fun h => ?_⟩
  obtain ⟨d, hd, hne⟩ := hwrong
  exact hne (h.bytes d hd).2

/-- Two consumers and a producer, each ticket taken after its bytes were enqueued. -/
theorem delivers_stream_eight : ∃ q s, SpmcQueue.reserve .zeroed 8#64 = some q
    ∧ execute SpmcSystem.step (fun s a => decide (a.Valid ∧ s.InStream a))
        (init q : SpmcSystem Bool)
        [.produce (.enqueueBytes [1, 2, 3, 4, 5, 6, 7, 8]),
          .stepProducer, .stepProducer, .stepProducer, .stepProducer,
          .consume false (.dequeueBytes 4#64), .consume true (.dequeueBytes 4#64),
          .stepConsumer false, .stepConsumer true, .stepConsumer true, .stepConsumer false,
          .stepConsumer true, .stepConsumer true, .stepConsumer false, .stepConsumer false,
          .stepConsumer true]
      = some s
    ∧ s.delivered = [⟨0, 4, [1, 2, 3, 4]⟩, ⟨4, 4, [5, 6, 7, 8]⟩]
    ∧ s.DeliversStream := by
  obtain ⟨s, hs, hdel⟩ : ∃ s, execute SpmcSystem.step (fun s a => decide (a.Valid ∧ s.InStream a))
      (init { buffer := some (List.replicate 72 0), capacity := 8#64, mask := 7#64 })
      [.produce (.enqueueBytes [1, 2, 3, 4, 5, 6, 7, 8]),
        .stepProducer, .stepProducer, .stepProducer, .stepProducer,
        .consume false (.dequeueBytes 4#64), .consume true (.dequeueBytes 4#64),
        .stepConsumer false, .stepConsumer true, .stepConsumer true, .stepConsumer false,
        .stepConsumer true, .stepConsumer true, .stepConsumer false, .stepConsumer false,
        .stepConsumer true]
      = some s ∧ s.delivered = [⟨0, 4, [1, 2, 3, 4]⟩, ⟨4, 4, [5, 6, 7, 8]⟩] :=
    Option.map_eq_some_iff.mp rfl
  have hq : SpmcQueue.reserve .zeroed 8#64
      = some { buffer := some (List.replicate 72 0), capacity := 8#64, mask := 7#64 } := rfl
  exact ⟨_, s, hq, hs, hdel, (delivers_stream hq rfl (Reaches.of_execute of_decide_eq_true hs)).1⟩

end Delivery

end SpmcSystem

end Femtolog
