import Mathlib.Data.Fintype.Basic
import Femtolog.Queue.SpmcChain

/-!
# Queue/SpmcRefinement — `SpmcQueue` as a stream, with consumers side by side

What was delivered by tickets (`Queue/SpmcRun`) is read here as a history of calls.  Two results:

* `refines_fifo` — while no check wraps around, the calls that moved bytes or found no room
  answer, in the order of their returns, as a FIFO stream of the queue's capacity.  A dequeue that
  was turned away has decided so at its check, before it gave its ticket back and returned; it books
  nothing and is left out, and so are peeks.
* `refines_alone` — where a consumer takes its ticket only when no other holds one, as under a lock
  around the dequeues, no check ever wraps around, no compare-exchange ever fails, and a dequeue is
  turned away for want of bytes only.
-/

namespace Femtolog

open SpmcQueue

variable {ι : Type} [DecidableEq ι]

/-! ## What a call books -/

/-- The call has moved bytes, or tried to put some in. -/
def Books : Call × Reply → Bool
  | (.peekBytes _, _) => false
  | (_, .status .kUnderflow _) => false
  | _ => true

/-- What a step of a call adds to the calls booked. -/
def Next.booked {Pc : Type} (call : Call) : Next Pc Reply → List (Call × Reply)
  | .goto _ => []
  | .ret reply => [(call, reply)].filter Books

/-- What is not booked has moved nothing. -/
theorem moved_nil_of_not_books {e : Call × Reply} (h : Books e = false) :
    Stream.pushedBy e = [] ∧ Stream.poppedBy e = [] := by
  obtain ⟨call, reply⟩ := e
  cases call with
  | peekBytes n => exact ⟨Stream.pushedBy_of_data_nil rfl reply, rfl⟩
  | _ =>
    cases reply with
    | status status bytes => cases status <;> first | exact ⟨rfl, rfl⟩ | cases h
    | flag _ | count _ => exact ⟨rfl, rfl⟩

namespace SpmcSystem

/-- The calls that have moved bytes or found no room, in the order of their returns. -/
def booked (s : SpmcSystem ι) : List (Call × Reply) := s.history.filter Books

/-- The bytes of the dequeues that returned `kOk`, in the order of their returns. -/
def dequeued (s : SpmcSystem ι) : List Byte := Stream.popped s.history

section Moves

variable {s : SpmcSystem ι} {i : ι} {call : Call} {q : SpmcQueue} {p : Positions ι}

omit [DecidableEq ι] in
theorem booked_producerGoes (next : Next SpmcProducerPc Reply) :
    (s.producerGoes call q next).booked = s.booked ++ next.booked call := by
  have hhist : (s.producerGoes call q next).history
      = s.history ++ (next.receipts call s.enqueued.length).map fun r => (r.call, r.reply) :=
    List.map_append
  rw [booked, hhist, List.filter_append]
  cases next <;> rfl

theorem booked_consumerGoes (next : Next SpmcConsumerPc Reply) :
    (s.consumerGoes i call q p next).booked = s.booked ++ next.booked call := by
  have hhist : (s.consumerGoes i call q p next).history
      = s.history ++ (next.receipts call (s.positions.ticket i)).map fun r => (r.call, r.reply) :=
    List.map_append
  rw [booked, hhist, List.filter_append]
  cases next <;> rfl

end Moves

theorem books_of_isEnqueue {call : Call} (h : call.IsEnqueue) {status : QueueStatus}
    (hne : status ≠ .kUnderflow) (bytes : List Byte) :
    [(call, Reply.status status bytes)].filter Books = [(call, .status status bytes)] := by
  cases call with
  | enqueueBytes _ | enqueueBulk _ => cases status <;> first | rfl | exact absurd rfl hne
  | _ => cases h

theorem books_of_isDequeue {call : Call} (h : call.IsDequeue) {status : QueueStatus}
    (hne : status ≠ .kUnderflow) (bytes : List Byte) :
    [(call, Reply.status status bytes)].filter Books = [(call, .status status bytes)] := by
  cases call with
  | dequeueBytes _ | dequeueBulk _ => cases status <;> first | rfl | exact absurd rfl hne
  | _ => cases h

/-! ## The history is the stream's -/

/-- **The calls booked are explained** by a stream that now holds what lies behind the commit
position. -/
def Explained (k : ℕ) (s : SpmcSystem ι) : Prop :=
  Explains (Stream.machine (2 ^ k)) [] s.booked (s.enqueued.drop s.positions.commit)

section Steps

variable {s s' : SpmcSystem ι} {i : ι} {call : Call} {k : ℕ} {a : SpmcAction ι}

omit [DecidableEq ι] in
/-- A move of the producer that books nothing, or a call the stream refuses alike. -/
theorem Explained.producer_fails (h : Explained k s) {status : QueueStatus} {bytes : List Byte}
    (hcall : call.IsEnqueue) (hok : status ≠ .kOk) (hunder : status ≠ .kUnderflow)
    (hanswer : Stream.enqueue (2 ^ k) (s.enqueued.drop s.positions.commit) call.data
      = (status, s.enqueued.drop s.positions.commit)) (hbytes : bytes = []) :
    Explained k (s.producerGoes call s.queue (.ret (.status status bytes))) := by
  subst hbytes
  have hpush : Stream.pushedBy (call, .status status []) = [] := by
    cases status with
    | kOk => exact absurd rfl hok
    | _ => rfl
  rw [Explained, booked_producerGoes, Next.booked, books_of_isEnqueue hcall hunder,
    enqueued_producer_ret, hpush, List.append_nil]
  refine h.snoc ?_
  rw [Stream.machine, answer_of_isEnqueue hcall, hanswer]
  rfl

omit [DecidableEq ι] in
theorem Explained.producer_goto (h : Explained k s) {q : SpmcQueue} (pc : SpmcProducerPc) :
    Explained k (s.producerGoes call q (.goto pc)) := by
  rw [Explained, booked_producerGoes, Next.booked, List.append_nil, enqueued_producer_goto]
  exact h

/-- A move of a consumer that books nothing and leaves the commit position. -/
theorem Explained.consumer_quiet (h : Explained k s) {q : SpmcQueue} {p : Positions ι}
    {next : Next SpmcConsumerPc Reply} (hcommit : p.commit = s.positions.commit)
    (hdata : call.data = []) (hbooks : next.booked call = []) :
    Explained k (s.consumerGoes i call q p next) := by
  have hpos : (s.consumerGoes i call q p next).positions.commit = s.positions.commit := hcommit
  rw [Explained, booked_consumerGoes, hbooks, List.append_nil, enqueued_consumerGoes hdata, hpos]
  exact h

omit [DecidableEq ι] in
/-- **The producer's steps answer as the stream does**: it is refused for want of room behind the
commit position, and its bytes are in the stream when the tail moves. -/
theorem Explained.stepProducer (h : Explained k s) (hinv : Inv k s) {pc : SpmcProducerPc}
    (hpc : s.producer = some (call, pc)) :
    Explained k (s.producerGoes call (s.queue.stepProducer pc).1 (s.queue.stepProducer pc).2) := by
  have hi := hinv.named
  have hcommit := hi.commit_le
  have hT := hi.tail_le
  have hlen : (s.enqueued.drop s.positions.commit).length
      = s.enqueued.length - s.positions.commit := List.length_drop
  have hat := hinv.producer
  rw [hpc] at hat
  cases hat with
  | loadTail hcall hr hkeep => exact h.producer_goto _
  | @loadCommit call r hcall hr hkeep =>
    have hroom := lacks_room_iff hi.k_lt hcommit hT hr.lt
    rw [← hi.capacity_eq, ← hi.tail_eq, ← hi.commit_eq, ← hr.total_eq] at hroom
    rw [SpmcQueue.stepProducer]
    by_cases hover : s.queue.capacity - (s.queue.tailIdx - s.queue.commitIdx) < r.total
    · rw [if_pos hover]
      have hfull := hroom.mp hover
      exact h.producer_fails hcall (by decide) (by decide)
        (Stream.enqueue_of_lt hr.ne_nil (by omega)) rfl
    · rw [if_neg hover]
      exact h.producer_goto _
  | @copy call r segs done rest hcall hr hdata hroom hcov hkeep =>
    cases segs with
    | cons seg segs => exact h.producer_goto _
    | nil =>
      have hpush := (pushedBy_of_isEnqueue hcall []).1
      rw [SpmcQueue.stepProducer, Explained, booked_producerGoes, Next.booked,
        books_of_isEnqueue hcall (by decide), enqueued_producer_ret, hpush]
      refine h.snoc ?_
      have hdrop : (s.enqueued ++ call.data).drop s.positions.commit
          = s.enqueued.drop s.positions.commit ++ call.data :=
        List.drop_append_of_le_length hcommit
      rw [Stream.machine, answer_of_isEnqueue hcall, Stream.enqueue_of_le hr.ne_nil (by omega)]
      exact congrArg (fun t => some (Reply.status .kOk [], t)) hdrop.symm

omit [DecidableEq ι] in
theorem Explained.beginProducer (h : Explained k s) (hinv : Inv k s) (hidle : s.producer = none)
    (hv : call.Valid) {next : Next SpmcProducerPc Reply}
    (hbegin : s.queue.beginProducer call = some next) :
    Explained k (s.producerGoes call s.queue next) := by
  have hat := hinv.producer
  rw [hidle] at hat
  obtain ⟨hkeep⟩ := hat
  obtain ⟨x, hx, rfl⟩ := Option.map_eq_some_iff.mp hbegin
  rw [hkeep.isSome] at hx
  obtain ⟨hcall, ⟨rfl, hnil⟩ | ⟨r, rfl, hr⟩⟩ := checkEnqueue_spec hx hv
  · exact h.producer_fails hcall (by decide) (by decide) (by rw [hnil, Stream.enqueue_nil]) rfl
  · exact h.producer_goto _

/-- **A commit is the stream's dequeue**: the ticket is the commit position, and the bytes copied
are the next ones. -/
theorem Explained.commits (h : Explained k s) (hinv : Inv k s) {r : DequeueRequest}
    {out : List Byte}
    (hpc : s.consumers i
      = some (call, .copy r (BitVec.ofNat 64 (s.positions.ticket i)) [] out))
    (hcall : call.IsDequeue) (hr : r.Takes call.asked)
    (hdata : s.positions.ticket i + call.asked ≤ s.enqueued.length)
    (hread : Reading (2 ^ k) s.enqueued (s.positions.ticket i) call.asked [] out)
    (hturn : s.queue.commitIdx = BitVec.ofNat 64 (s.positions.ticket i)) {q : SpmcQueue} :
    Explained k (s.consumerGoes i call q
      (s.positions.after i s.queue (.copy r (BitVec.ofNat 64 (s.positions.ticket i)) [] out))
      (.ret (.status .kOk out))) := by
  have hmem : i ∈ s.positions.line := (hinv.mem_line i).mpr ((holds_iff hpc).mpr trivial)
  have hstart : s.positions.ticket i = s.positions.commit :=
    hinv.ticket_eq_commit hmem (by omega) hturn
  have hout : out = (s.enqueued.drop s.positions.commit).take call.asked := by
    rw [← hstart]
    exact hread.done
  have hlen : (s.enqueued.drop s.positions.commit).length
      = s.enqueued.length - s.positions.commit := List.length_drop
  have hcommit : (s.positions.after i s.queue
      (.copy r (BitVec.ofNat 64 (s.positions.ticket i)) [] out)).commit
        = s.positions.commit + call.asked := by
    rw [Positions.after, if_pos hturn, hr.toNat_total]
  rw [Explained, booked_consumerGoes, Next.booked, books_of_isDequeue hcall (by decide),
    enqueued_consumerGoes (data_nil_of_isDequeue hcall)]
  refine h.snoc ?_
  rw [Stream.machine, answer_of_isDequeue hcall, Stream.peek_of_le hr.ne_zero (by omega),
    Stream.rest_of_le (by omega), List.drop_drop, ← hcommit, ← hout]
  rfl

/-- **A consumer's steps answer as the stream does.** -/
theorem Explained.stepConsumer (h : Explained k s) (hinv : Inv k s) {pc : SpmcConsumerPc}
    (hpc : s.consumers i = some (call, pc)) :
    Explained k (s.consumerGoes i call (s.queue.stepConsumer pc).1 (s.positions.after i s.queue pc)
      (s.queue.stepConsumer pc).2) := by
  have hat := hinv.consumer i
  rw [hpc] at hat
  cases hat with
  | @claim call r hcall hr => exact h.consumer_quiet rfl (data_nil_of_isDequeue hcall) rfl
  | @loadTail call r hcall hr =>
    refine h.consumer_quiet rfl (data_nil_of_isDequeue hcall) ?_
    rw [SpmcQueue.stepConsumer]
    split_ifs <;> rfl
  | @rewind call r hcall hr =>
    refine h.consumer_quiet rfl (data_nil_of_isDequeue hcall) ?_
    cases call with
    | dequeueBytes _ | dequeueBulk _ => rfl
    | _ => cases hcall
  | @copy call r segs out hcall hr hdata hread =>
    cases segs with
    | cons seg segs => exact h.consumer_quiet rfl (data_nil_of_isDequeue hcall) rfl
    | nil =>
      by_cases hturn : s.queue.commitIdx = BitVec.ofNat 64 (s.positions.ticket i)
      · rw [SpmcQueue.stepConsumer, if_pos hturn]
        exact h.commits hinv hpc hcall hr hdata hread hturn
      · rw [SpmcQueue.stepConsumer, Positions.after, if_neg hturn, if_neg hturn]
        exact h.consumer_quiet rfl (data_nil_of_isDequeue hcall) rfl
  | @peekLoadCommit n => exact h.consumer_quiet rfl rfl rfl
  | @peekLoadTail n commit =>
    refine h.consumer_quiet rfl rfl ?_
    rw [SpmcQueue.stepConsumer]
    split_ifs <;> rfl
  | @peekCopy n segs out =>
    refine h.consumer_quiet rfl rfl ?_
    cases segs <;> rfl

theorem Explained.beginConsumer (h : Explained k s) (hinv : Inv k s) (hv : call.Valid)
    {next : Next SpmcConsumerPc Reply} (hbegin : s.queue.beginConsumer call = some next) :
    Explained k (s.consumerGoes i call s.queue s.positions next) := by
  obtain ⟨done, hkeep⟩ := hinv.producer.keeps
  have hdequeue (hmap : (checkDequeue s.queue.buffer.isSome call).map
      (Next.ofCheck SpmcConsumerPc.claim) = some next) :
      Explained k (s.consumerGoes i call s.queue s.positions next) := by
    obtain ⟨x, hx, rfl⟩ := Option.map_eq_some_iff.mp hmap
    rw [hkeep.isSome] at hx
    obtain ⟨hcall, ⟨rfl, hzero⟩ | ⟨r, rfl, hr⟩⟩ := checkDequeue_spec hx hv
    · rw [Explained, Next.ofCheck, booked_consumerGoes, Next.booked,
        books_of_isDequeue hcall (by decide), enqueued_consumerGoes (data_nil_of_isDequeue hcall)]
      refine h.snoc ?_
      rw [Stream.machine, answer_of_isDequeue hcall, hzero, Stream.peek_zero, Stream.rest_zero]
      rfl
    · exact h.consumer_quiet rfl (data_nil_of_isDequeue hcall) rfl
  cases call with
  | peekBytes n =>
    obtain rfl := Option.some.inj hbegin
    refine h.consumer_quiet rfl rfl ?_
    split_ifs <;> rfl
  | _ => exact hdequeue hbegin

/-- **Every step answers as the stream does.** -/
theorem Explained.step (h : Explained k s) (hinv : Inv k s) (hv : a.Valid)
    (hstep : s.step a = some s') : Explained k s' := by
  cases stepped_of_step hstep with
  | produce hidle hbegin => exact h.beginProducer hinv hidle hv hbegin
  | consume _ hbegin => exact h.beginConsumer hinv hv hbegin
  | stepProducer hpc => exact h.stepProducer hinv hpc
  | stepConsumer hpc => exact h.stepConsumer hinv hpc

end Steps

/-! ## Refinement -/

/-- **The queue refines the FIFO byte stream.** -/
structure RefinesStream (s : SpmcSystem ι) : Prop where
  /-- The calls booked answer, in the order of their returns, as a stream of the queue's
  capacity. -/
  explained : Explains (Stream.machine s.queue.capacity.toNat) [] s.booked
    (s.enqueued.drop s.dequeued.length)
  in_order : s.dequeued <+: s.enqueued

section Refinement

variable {s : SpmcSystem ι} {k : ℕ}

omit [DecidableEq ι] in
/-- The bytes dequeued are those before the commit position. -/
theorem Explained.dequeued_eq (h : Explained k s) (hinv : Inv k s) :
    s.dequeued = s.enqueued.take s.positions.commit ∧ s.dequeued.length = s.positions.commit := by
  have hcommit := hinv.named.commit_le
  obtain ⟨l, hcontents, hpop, hpush⟩ := Stream.ledger_of_explains h
  have hpopped : l.popped = s.dequeued :=
    hpop.trans (flatMap_filter_of_nil (fun he => (moved_nil_of_not_books he).2) s.history)
  have hpushed : l.pushed = s.enqueued :=
    hpush.trans (flatMap_filter_of_nil (fun he => (moved_nil_of_not_books he).1) s.history)
  have hbalance : s.dequeued ++ s.enqueued.drop s.positions.commit = s.enqueued := by
    rw [← hpopped, ← hcontents, l.balance, hpushed]
  have heq : s.dequeued = s.enqueued.take s.positions.commit := by
    refine List.append_cancel_right (hbalance.trans ?_)
    exact (List.take_append_drop _ _).symm
  exact ⟨heq, by rw [heq, List.length_take_of_le hcommit]⟩

omit [DecidableEq ι] in
/-- The invariants are enough. -/
theorem Explained.refines (h : Explained k s) (hinv : Inv k s) : s.RefinesStream := by
  obtain ⟨heq, hlen⟩ := h.dequeued_eq hinv
  have hcap : s.queue.capacity.toNat = 2 ^ k := by
    rw [hinv.named.capacity_eq]
    exact toNat_ofNat_of_lt (Nat.pow_lt_pow_right (by norm_num) hinv.named.k_lt)
  refine ⟨?_, heq ▸ List.take_prefix _ _⟩
  rw [hcap, hlen]
  exact h

/-- **As long as no check wraps around, `SpmcQueue` refines a FIFO byte stream**, with any number of
consumers side by side. -/
theorem refines_fifo {mem : Allocator} {n : Size} {q : SpmcQueue}
    (hq : SpmcQueue.reserve mem n = some q) (hbuf : q.buffer.isSome)
    (hrun : Reaches SpmcSystem.step (fun s a => a.Valid ∧ s.InStream a) (init q) s) :
    s.RefinesStream := by
  obtain ⟨k, hinit⟩ := inv_of_reserve (ι := ι) hq hbuf
  have h : Inv k s ∧ Explained k s := hrun.invariant (I := fun s => Inv k s ∧ Explained k s)
    ⟨hinit, .nil⟩ fun h hg hstep => ⟨h.1.step hg.1 hg.2 hstep, h.2.step h.1 hg.1 hstep⟩
  exact h.2.refines h.1

/-- Two consumers that hold their tickets side by side, the second one copying first. -/
theorem refines_fifo_eight : ∃ q s, SpmcQueue.reserve .zeroed 8#64 = some q
    ∧ execute SpmcSystem.step (fun s a => decide (a.Valid ∧ s.InStream a))
        (init q : SpmcSystem Bool)
        [.produce (.enqueueBytes [1, 2, 3, 4, 5, 6, 7, 8]),
          .stepProducer, .stepProducer, .stepProducer, .stepProducer,
          .consume false (.dequeueBytes 4#64), .consume true (.dequeueBytes 4#64),
          .stepConsumer false, .stepConsumer true, .stepConsumer true, .stepConsumer false,
          .stepConsumer true, .stepConsumer true, .stepConsumer false, .stepConsumer false,
          .stepConsumer true]
      = some s
    ∧ s.dequeued = [1, 2, 3, 4, 5, 6, 7, 8]
    ∧ s.RefinesStream := by
  obtain ⟨s, hs, hout⟩ : ∃ s, execute SpmcSystem.step (fun s a => decide (a.Valid ∧ s.InStream a))
      (init { buffer := some (List.replicate 72 0), capacity := 8#64, mask := 7#64 })
      [.produce (.enqueueBytes [1, 2, 3, 4, 5, 6, 7, 8]),
        .stepProducer, .stepProducer, .stepProducer, .stepProducer,
        .consume false (.dequeueBytes 4#64), .consume true (.dequeueBytes 4#64),
        .stepConsumer false, .stepConsumer true, .stepConsumer true, .stepConsumer false,
        .stepConsumer true, .stepConsumer true, .stepConsumer false, .stepConsumer false,
        .stepConsumer true]
      = some s ∧ s.dequeued = [1, 2, 3, 4, 5, 6, 7, 8] := Option.map_eq_some_iff.mp rfl
  have hq : SpmcQueue.reserve .zeroed 8#64
      = some { buffer := some (List.replicate 72 0), capacity := 8#64, mask := 7#64 } := rfl
  exact ⟨_, s, hq, hs, hout, refines_fifo hq rfl (Reaches.of_execute of_decide_eq_true hs)⟩

end Refinement

/-! ## One dequeue at a time -/

instance (s : SpmcSystem ι) (i : ι) : Decidable (s.Holds i) :=
  match hc : s.consumers i with
  | none => .isFalse fun ⟨_, _, h, _⟩ => by rw [hc] at h; cases h
  | some (_, .loadTail _ _) | some (_, .rewind _ _) | some (_, .copy _ _ _ _) =>
    .isTrue ⟨_, _, hc, trivial⟩
  | some (_, .claim _) | some (_, .peekLoadCommit _) | some (_, .peekLoadTail _ _)
  | some (_, .peekCopy _ _) => .isFalse fun ⟨_, _, h, hh⟩ => by rw [hc] at h; cases h; exact hh

/-- A step at `pc` is the start of the only dequeue, if it is the start of one. -/
def PcAlone (s : SpmcSystem ι) : SpmcConsumerPc → Prop
  | .claim _ => ∀ j, ¬ s.Holds j
  | _ => True

/-- **A ticket is taken only when nobody holds one.** -/
def Alone (s : SpmcSystem ι) : SpmcAction ι → Prop
  | .stepConsumer i => ∀ inside ∈ s.consumers i, s.PcAlone inside.2
  | _ => True

instance [Fintype ι] (s : SpmcSystem ι) : DecidablePred s.PcAlone
  | .claim _ => inferInstanceAs (Decidable (∀ j, ¬ s.Holds j))
  | .loadTail _ _ | .rewind _ _ | .copy _ _ _ _ => inferInstanceAs (Decidable True)
  | .peekLoadCommit _ | .peekLoadTail _ _ | .peekCopy _ _ => inferInstanceAs (Decidable True)

instance [Fintype ι] (s : SpmcSystem ι) : DecidablePred s.Alone
  | .stepConsumer i => inferInstanceAs (Decidable (∀ inside ∈ s.consumers i, _))
  | .produce _ | .consume _ _ | .stepProducer => inferInstanceAs (Decidable True)

section Alone

variable {s s' : SpmcSystem ι} {i : ι} {call : Call} {k : ℕ} {a : SpmcAction ι}

/-- **The invariant of the runs with one dequeue at a time**: at most one ticket is out. -/
structure Single (k : ℕ) (s : SpmcSystem ι) : Prop where
  inv : Inv k s
  chain : Chain s
  explained : Explained k s
  length_le : s.positions.line.length ≤ 1

omit [DecidableEq ι] in
/-- Who holds a ticket is the only one, and its ticket runs from the commit position to the head. -/
theorem Single.of_mem (h : Single k s) (hi : i ∈ s.positions.line) :
    s.positions.line = [i] ∧ s.positions.ticket i = s.positions.commit
      ∧ s.positions.head = s.positions.ticket i + s.size i := by
  have hline : s.positions.line = [i] := by
    obtain ⟨j, hj⟩ := List.length_eq_one_iff.mp
      (le_antisymm h.length_le (List.length_pos_of_mem hi))
    rw [hj, List.mem_singleton] at hi
    rw [hj, hi]
  have htiled := h.chain.tiled
  rw [hline] at htiled
  have hstart : s.positions.commit = s.positions.ticket i := htiled.1
  have hend : s.positions.commit + s.size i = s.positions.head := htiled.2
  exact ⟨hline, hstart.symm, by omega⟩

omit [DecidableEq ι] in
/-- Nobody else is there to get out of turn with. -/
theorem Single.inTurn (h : Single k s) : s.InTurn a := by
  cases a with
  | produce _ | consume _ _ | stepProducer => trivial
  | stepConsumer i =>
  rintro ⟨call, pc⟩ (hpc : s.consumers i = some (call, pc))
  have hat := h.inv.consumer i
  rw [hpc] at hat
  cases hat with
  | claim _ _ | copy _ _ _ _ | peekLoadCommit | peekLoadTail | peekCopy => trivial
  | loadTail hcall hr =>
    have hmem : i ∈ s.positions.line := (h.inv.mem_line i).mpr ((holds_iff hpc).mpr trivial)
    obtain ⟨hline, -, -⟩ := h.of_mem hmem
    intro j hj hlt
    obtain rfl := List.mem_singleton.mp (hline ▸ hj)
    exact absurd hlt (lt_irrefl _)
  | rewind hcall hr =>
    have hmem : i ∈ s.positions.line := (h.inv.mem_line i).mpr ((holds_iff hpc).mpr trivial)
    obtain ⟨-, -, hhead⟩ := h.of_mem hmem
    rw [size_of_inside hpc, ← hr.toNat_total] at hhead
    exact hhead

/-- A step lets the line grow only by a ticket taken. -/
theorem length_line_le_of_step (hinv : Inv k s) (halone : s.Alone a)
    (hle : s.positions.line.length ≤ 1) (hstep : s.step a = some s') :
    s'.positions.line.length ≤ 1 := by
  cases stepped_of_step hstep with
  | produce _ _ | consume _ _ | stepProducer _ => exact hle
  | @stepConsumer i call pc hpc =>
    have hgoal : (s.positions.after i s.queue pc).line.length ≤ 1 := by
      cases pc with
      | claim r =>
        have hfree : s.positions.line = [] := List.eq_nil_iff_forall_not_mem.mpr fun j hj =>
          halone _ hpc j ((hinv.mem_line j).mp hj)
        rw [Positions.after, hfree]
        rfl
      | rewind r ticket => exact (List.length_erase_le ..).trans hle
      | copy r ticket segs out =>
        cases segs with
        | cons seg segs => exact hle
        | nil =>
          rw [Positions.after]
          split_ifs
          · exact (List.length_erase_le ..).trans hle
          · exact hle
      | loadTail _ _ | peekLoadCommit _ | peekLoadTail _ _ | peekCopy _ _ => exact hle
    exact hgoal

/-- **Every step with one dequeue at a time keeps the invariant**, and its check does not wrap
around. -/
theorem Single.step (h : Single k s) (hv : a.Valid) (halone : s.Alone a)
    (hstep : s.step a = some s') : Single k s' where
  inv := h.inv.step hv (h.chain.inStream h.inv h.inTurn) hstep
  chain := h.chain.step h.inv h.inTurn hstep
  explained := h.explained.step h.inv hv hstep
  length_le := length_line_le_of_step h.inv halone h.length_le hstep

/-- **What holds with one dequeue at a time**, besides the refinement: a dequeue is turned away for
want of bytes only, and never waits for the commit index. -/
structure RefinesAlone (s : SpmcSystem ι) : Prop where
  refines : s.RefinesStream
  checks : ∀ {i call r ticket}, s.consumers i = some (call, .loadTail r ticket) →
    (s.queue.tailIdx - ticket < r.total
      ↔ s.enqueued.length < s.dequeued.length + call.asked)
  commits : ∀ {i call r ticket segs out}, s.consumers i = some (call, .copy r ticket segs out) →
    s.queue.commitIdx = ticket
  /-- A queue nobody is in has its indices in order. -/
  size : (∀ i, ¬ s.Holds i) → s.queue.size.toNat = s.enqueued.length - s.dequeued.length

omit [DecidableEq ι] in
/-- The invariant is enough. -/
theorem Single.refinesAlone (h : Single k s) : s.RefinesAlone := by
  have hi := h.inv.named
  have hcommit := hi.commit_le
  have hT := hi.tail_le
  have hpow : 2 ^ k < 2 ^ 64 := Nat.pow_lt_pow_right (by norm_num) hi.k_lt
  obtain ⟨-, hlen⟩ := h.explained.dequeued_eq h.inv
  refine ⟨h.explained.refines h.inv, fun {i call r ticket} hpc => ?_,
    fun {i call r ticket segs out} hpc => ?_, fun hfree => ?_⟩
  · have hmem : i ∈ s.positions.line := (h.inv.mem_line i).mpr ((holds_iff hpc).mpr trivial)
    obtain ⟨-, hstart, -⟩ := h.of_mem hmem
    have hat := h.inv.consumer i
    rw [hpc] at hat
    cases hat with
    | loadTail hcall hr =>
      rw [hi.tail_eq, hr.total_eq, hstart, lacks_data_iff hi.k_lt hcommit hT hr.lt, hlen]
      omega
  · have hmem : i ∈ s.positions.line := (h.inv.mem_line i).mpr ((holds_iff hpc).mpr trivial)
    obtain ⟨-, hstart, -⟩ := h.of_mem hmem
    have hat := h.inv.consumer i
    rw [hpc] at hat
    cases hat with
    | copy => rw [hi.commit_eq, hstart]
  · have hline : s.positions.line = [] := List.eq_nil_iff_forall_not_mem.mpr fun i hmem =>
      hfree i ((h.inv.mem_line i).mp hmem)
    have htiled := h.chain.tiled
    rw [hline] at htiled
    have hhead : s.positions.commit = s.positions.head := htiled
    rw [SpmcQueue.size, hi.tail_eq, hi.head_eq, ← hhead, hlen]
    exact toNat_ofNat_sub_ofNat hcommit (by omega)

/-- **With one dequeue at a time `SpmcQueue` refines the FIFO byte stream in every interleaving with
the producer**, and no consumer ever waits in its compare-exchange loop. -/
theorem refines_alone {mem : Allocator} {n : Size} {q : SpmcQueue}
    (hq : SpmcQueue.reserve mem n = some q) (hbuf : q.buffer.isSome)
    (hrun : Reaches SpmcSystem.step (fun s a => a.Valid ∧ s.Alone a) (init q) s) :
    s.RefinesAlone := by
  obtain ⟨k, hinit⟩ := inv_of_reserve (ι := ι) hq hbuf
  have hstart : Single k (init q : SpmcSystem ι) :=
    ⟨hinit, ⟨rfl, by simp [init], by simp [init]⟩, .nil, by simp [init]⟩
  have h : Single k s := hrun.invariant hstart fun h hg hstep => h.step hg.1 hg.2 hstep
  exact h.refinesAlone

/-- One consumer is turned away with a byte too few, before the next one takes what there is; the
producer is at work all the while. -/
theorem refines_alone_four : ∃ q s, SpmcQueue.reserve .zeroed 4#64 = some q
    ∧ execute SpmcSystem.step (fun s a => decide (a.Valid ∧ s.Alone a))
        (init q : SpmcSystem Bool)
        [.produce (.enqueueBytes [1, 2, 3]), .stepProducer, .stepProducer, .stepProducer,
          .consume false (.dequeueBytes 2#64), .consume true (.dequeueBytes 3#64),
          .stepConsumer false, .stepConsumer false, .stepProducer, .stepConsumer false,
          .stepConsumer true, .stepConsumer true, .stepConsumer true, .stepConsumer true]
      = some s
    ∧ s.dequeued = [1, 2, 3]
    ∧ s.RefinesAlone := by
  obtain ⟨s, hs, hout⟩ : ∃ s, execute SpmcSystem.step (fun s a => decide (a.Valid ∧ s.Alone a))
      (init { buffer := some (List.replicate 68 0), capacity := 4#64, mask := 3#64 })
      [.produce (.enqueueBytes [1, 2, 3]), .stepProducer, .stepProducer, .stepProducer,
        .consume false (.dequeueBytes 2#64), .consume true (.dequeueBytes 3#64),
        .stepConsumer false, .stepConsumer false, .stepProducer, .stepConsumer false,
        .stepConsumer true, .stepConsumer true, .stepConsumer true, .stepConsumer true]
      = some s ∧ s.dequeued = [1, 2, 3] := Option.map_eq_some_iff.mp rfl
  have hq : SpmcQueue.reserve .zeroed 4#64
      = some { buffer := some (List.replicate 68 0), capacity := 4#64, mask := 3#64 } := rfl
  exact ⟨_, s, hq, hs, hout, refines_alone hq rfl (Reaches.of_execute of_decide_eq_true hs)⟩

end Alone

end SpmcSystem

end Femtolog
