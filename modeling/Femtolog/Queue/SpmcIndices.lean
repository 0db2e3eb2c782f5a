import Mathlib.Algebra.BigOperators.Group.List.Basic
import Femtolog.Queue.SpmcRun

/-!
# Queue/SpmcIndices — the three indices of `SpmcQueue`, in every state

The head is the commit index plus what the tickets outstanding ask for, whatever the consumers do
(`Indexed`).  So while a ticket is out `size` and `available_space`, which read the head, do not
tell what the producer's own check, which reads the commit index, will find: the space they promise
is more than there is, and with the head beyond the tail `size` wraps around
(`SpmcSystem.indices_ordered_iff`).
-/

namespace Femtolog

open SpmcQueue

variable {ι : Type} [DecidableEq ι]

/-! ## What the threads ask for

Unlike `ProducerAt` and `ConsumerAt` this holds in every run: it says nothing of the bytes in the
buffer. -/

/-- The request of a consumer, wherever it is in its call. -/
def SpmcConsumerPc.Asks (call : Call) : SpmcConsumerPc → Prop
  | .claim r | .loadTail r _ | .rewind r _ | .copy r _ _ _ => call.IsDequeue ∧ r.Takes call.asked
  | .peekLoadCommit _ | .peekLoadTail _ _ | .peekCopy _ _ => ∃ n, call = .peekBytes n

/-- The request of the producer, the tail it has loaded, and the room it was admitted to. -/
def SpmcProducerPc.Asks (call : Call) (tail : Size) (room : ℕ) : SpmcProducerPc → Prop
  | .loadTail r => call.IsEnqueue ∧ r.Brings call.data
  | .loadCommit r loaded => call.IsEnqueue ∧ r.Brings call.data ∧ loaded = tail
  | .copy r loaded _ _ =>
    call.IsEnqueue ∧ r.Brings call.data ∧ loaded = tail ∧ call.data.length ≤ room

theorem SpmcProducerPc.Asks.mono {call : Call} {tail : Size} {room room' : ℕ} {pc : SpmcProducerPc}
    (h : pc.Asks call tail room) (hroom : room ≤ room') : pc.Asks call tail room' := by
  cases pc with
  | loadTail r => exact h
  | loadCommit r loaded => exact h
  | copy r loaded segs rest =>
    obtain ⟨hcall, hr, hloaded, hfits⟩ := h
    exact ⟨hcall, hr, hloaded, hfits.trans hroom⟩

theorem SpmcProducerPc.Asks.isEnqueue {call : Call} {tail : Size} {room : ℕ} {pc : SpmcProducerPc}
    (h : pc.Asks call tail room) : call.IsEnqueue := by
  cases pc with
  | loadTail _ | loadCommit _ _ | copy _ _ _ _ => exact h.1

/-- A consumer's call enqueues nothing. -/
theorem SpmcConsumerPc.Asks.data_nil {call : Call} {pc : SpmcConsumerPc} (h : pc.Asks call) :
    call.data = [] := by
  cases pc with
  | claim _ | loadTail _ _ | rewind _ _ | copy _ _ _ _ => exact data_nil_of_isDequeue h.1
  | peekLoadCommit _ | peekLoadTail _ _ | peekCopy _ _ =>
    obtain ⟨n, rfl⟩ := h
    rfl

namespace SpmcSystem

/-! ## The invariant -/

/-- The positions the tickets outstanding ask for. -/
def outstanding (s : SpmcSystem ι) : ℕ := (s.positions.line.map s.size).sum

/-- The positions the dequeues that returned `kOk` took, and those outstanding tickets ask for. -/
def requested (s : SpmcSystem ι) : ℕ := (s.delivered.map Delivery.size).sum + s.outstanding

/-- **The invariant of every run**: the indices name their positions, the head is ahead of the
commit position by what is outstanding, and the tail never more than a capacity. -/
structure Indexed (k : ℕ) (s : SpmcSystem ι) : Prop where
  k_lt : k < 64
  capacity_eq : s.queue.capacity = BitVec.ofNat 64 (2 ^ k)
  tail_eq : s.queue.tailIdx = BitVec.ofNat 64 s.enqueued.length
  head_eq : s.queue.headIdx = BitVec.ofNat 64 s.positions.head
  commit_eq : s.queue.commitIdx = BitVec.ofNat 64 s.positions.commit
  allocated : s.queue.buffer.isSome = true
  head_sum : s.positions.head = s.positions.commit + s.outstanding
  commit_sum : s.positions.commit = (s.delivered.map Delivery.size).sum
  tail_le : s.enqueued.length ≤ s.positions.commit + 2 ^ k
  nodup : s.positions.line.Nodup
  mem_line : ∀ i, i ∈ s.positions.line ↔ s.Holds i
  producer : ∀ {call pc}, s.producer = some (call, pc) →
    pc.Asks call s.queue.tailIdx (s.positions.commit + 2 ^ k - s.enqueued.length)
  consumer : ∀ {i call pc}, s.consumers i = some (call, pc) → pc.Asks call

section Moves

variable {s : SpmcSystem ι} {i : ι} {call : Call} {q : SpmcQueue} {p : Positions ι} {k : ℕ}

omit [DecidableEq ι] in
/-- A step inside an enqueue. -/
theorem Indexed.producer_goto (h : Indexed k s) {pc : SpmcProducerPc}
    (hindices : (q.capacity, q.tailIdx, q.headIdx, q.commitIdx)
      = (s.queue.capacity, s.queue.tailIdx, s.queue.headIdx, s.queue.commitIdx))
    (hbuf : q.buffer.isSome = true)
    (hpc : pc.Asks call s.queue.tailIdx (s.positions.commit + 2 ^ k - s.enqueued.length)) :
    Indexed k (s.producerGoes call q (.goto pc)) := by
  obtain ⟨hcapacity, htail, hhead, hcommit⟩ := by simpa using hindices
  have henq : (s.producerGoes call q (.goto pc)).enqueued = s.enqueued :=
    enqueued_producer_goto pc
  have hdel : (s.producerGoes call q (.goto pc)).delivered = s.delivered :=
    delivered_producer_goto pc
  refine ⟨h.k_lt, hcapacity.trans h.capacity_eq, ?_, hhead.trans h.head_eq,
    hcommit.trans h.commit_eq, hbuf, h.head_sum, ?_, ?_, h.nodup, h.mem_line, ?_, h.consumer⟩
  · rw [henq]
    exact htail.trans h.tail_eq
  · rw [hdel]
    exact h.commit_sum
  · rw [henq]
    exact h.tail_le
  · intro call' pc' hpc'
    obtain ⟨rfl, rfl⟩ := Prod.mk.inj (Option.some.inj hpc')
    rw [henq]
    exact htail.symm ▸ hpc

omit [DecidableEq ι] in
/-- **The return of an enqueue** that has put `data` into the stream. -/
theorem Indexed.producer_ret (h : Indexed k s) {reply : Reply} {data : List Byte}
    (hcall : call.IsEnqueue) (hpush : Stream.pushedBy (call, reply) = data)
    (hindices : (q.capacity, q.headIdx, q.commitIdx)
      = (s.queue.capacity, s.queue.headIdx, s.queue.commitIdx))
    (hbuf : q.buffer.isSome = true) (htail : q.tailIdx = s.queue.tailIdx + sizeWord data)
    (hroom : s.enqueued.length + data.length ≤ s.positions.commit + 2 ^ k) :
    Indexed k (s.producerGoes call q (.ret reply)) := by
  obtain ⟨hcapacity, hhead, hcommit⟩ := by simpa using hindices
  have henq : (s.producerGoes call q (.ret reply)).enqueued = s.enqueued ++ data :=
    hpush ▸ enqueued_producer_ret reply
  have hdel : (s.producerGoes call q (.ret reply)).delivered = s.delivered :=
    delivered_producer_ret hcall reply
  refine ⟨h.k_lt, hcapacity.trans h.capacity_eq, ?_, hhead.trans h.head_eq,
    hcommit.trans h.commit_eq, hbuf, h.head_sum, ?_, ?_, h.nodup, h.mem_line, ?_, h.consumer⟩
  · rw [henq, List.length_append, BitVec.ofNat_add, ← h.tail_eq]
    exact htail
  · rw [hdel]
    exact h.commit_sum
  · rw [henq, List.length_append]
    exact hroom
  · intro call' pc' hpc'
    cases hpc'

/-- **A move of consumer `i`** to the positions `p`. -/
theorem Indexed.consumer_moves (h : Indexed k s) {next : Next SpmcConsumerPc Reply}
    (hsame : (q.buffer, q.capacity, q.tailIdx)
      = (s.queue.buffer, s.queue.capacity, s.queue.tailIdx))
    (hhead : q.headIdx = BitVec.ofNat 64 p.head) (hcommit : q.commitIdx = BitVec.ofNat 64 p.commit)
    (hdata : call.data = []) (hmono : s.positions.commit ≤ p.commit)
    (hsum : p.head = p.commit + (p.line.map (s.consumerGoes i call q p next).size).sum)
    (hcommitted : p.commit = s.positions.commit
      + (((next.receipts call (s.positions.ticket i)).filterMap Receipt.delivery).map
          Delivery.size).sum)
    (hnodup : p.line.Nodup) (hself : i ∈ p.line ↔ next.Holds)
    (hothers : ∀ j, j ≠ i → (j ∈ p.line ↔ j ∈ s.positions.line))
    (hasks : ∀ pc, next = .goto pc → pc.Asks call) :
    Indexed k (s.consumerGoes i call q p next) := by
  obtain ⟨hbuf, hcapacity, htail⟩ := by simpa using hsame
  have henq : (s.consumerGoes i call q p next).enqueued = s.enqueued :=
    enqueued_consumerGoes hdata next
  refine ⟨h.k_lt, hcapacity.trans h.capacity_eq, ?_, hhead, hcommit, ?_, hsum, ?_, ?_, hnodup, ?_,
    ?_, ?_⟩
  · rw [henq]
    exact htail.trans h.tail_eq
  · exact hbuf ▸ h.allocated
  · rw [delivered_consumerGoes, List.map_append, List.sum_append, ← h.commit_sum]
    exact hcommitted
  · rw [henq]
    exact h.tail_le.trans (Nat.add_le_add_right hmono _)
  · exact mem_line_consumerGoes h.mem_line hself hothers
  · intro call' pc' hpc'
    rw [henq]
    have hasked := h.producer hpc'
    rw [← htail] at hasked
    refine hasked.mono ?_
    exact Nat.sub_le_sub_right (Nat.add_le_add_right hmono _) _
  · intro j call' pc' hpc'
    by_cases hj : j = i
    · subst hj
      cases next with
      | goto pc =>
        simp only [consumerGoes, Function.update_self, Next.inside] at hpc'
        obtain ⟨rfl, rfl⟩ := Prod.mk.inj (Option.some.inj hpc')
        exact hasks _ rfl
      | ret reply => simp [consumerGoes, Next.inside] at hpc'
    · simp only [consumerGoes, Function.update_of_ne hj] at hpc'
      exact h.consumer hpc'

/-- The sizes of a line consumer `i` is not in do not change with its moves. -/
theorem map_size_of_free {L : List ι} (hfree : i ∉ L) (next : Next SpmcConsumerPc Reply) :
    L.map (s.consumerGoes i call q p next).size = L.map s.size :=
  List.map_congr_left fun _ hj => size_of_ne next fun heq => hfree (heq ▸ hj)

/-- **A move that leaves the positions.** -/
theorem Indexed.consumer_stays (h : Indexed k s) {next : Next SpmcConsumerPc Reply}
    (hdata : call.data = []) (hself : s.Holds i ↔ next.Holds)
    (hsize : s.Holds i → s.size i = call.asked)
    (hnone : (next.receipts call (s.positions.ticket i)).filterMap Receipt.delivery = [])
    (hasks : ∀ pc, next = .goto pc → pc.Asks call) :
    Indexed k (s.consumerGoes i call s.queue s.positions next) := by
  refine h.consumer_moves rfl h.head_eq h.commit_eq hdata (le_refl _) ?_ ?_ h.nodup
    ((h.mem_line i).trans hself) (fun _ _ => Iff.rfl) hasks
  · have hsizes : s.positions.line.map (s.consumerGoes i call s.queue s.positions next).size
        = s.positions.line.map s.size := by
      refine List.map_congr_left fun j hj => ?_
      by_cases hji : j = i
      · subst hji
        have hholds := (h.mem_line j).mp hj
        cases next with
        | goto pc => rw [size_of_goto, hsize hholds]
        | ret reply => cases hself.mp hholds
      · exact size_of_ne next hji
    rw [hsizes]
    exact h.head_sum
  · rw [hnone]
    rfl

end Moves

/-! ## Steps -/

section Steps

variable {s s' : SpmcSystem ι} {i : ι} {k : ℕ} {call : Call} {a : SpmcAction ι}

omit [DecidableEq ι] in
/-- An enqueue that fails leaves the indices. -/
theorem Indexed.producer_fails (h : Indexed k s) (hcall : call.IsEnqueue) {status : QueueStatus}
    (hne : status ≠ .kOk) : Indexed k (s.producerGoes call s.queue (.ret (.status status []))) := by
  have hpush : Stream.pushedBy (call, .status status []) = [] := by
    cases status with
    | kOk => exact absurd rfl hne
    | _ => rfl
  exact h.producer_ret hcall hpush rfl h.allocated (by simp [sizeWord]) h.tail_le

omit [DecidableEq ι] in
/-- **The producer's steps keep the invariant.** -/
theorem Indexed.stepProducer (h : Indexed k s) {pc : SpmcProducerPc}
    (hpc : s.producer = some (call, pc)) :
    Indexed k (s.producerGoes call (s.queue.stepProducer pc).1 (s.queue.stepProducer pc).2) := by
  have hasks := h.producer hpc
  cases pc with
  | loadTail r =>
    obtain ⟨hcall, hr⟩ := hasks
    exact h.producer_goto rfl h.allocated ⟨hcall, hr, rfl⟩
  | loadCommit r loaded =>
    obtain ⟨hcall, hr, rfl⟩ := hasks
    rw [SpmcQueue.stepProducer]
    by_cases hover : s.queue.capacity - (s.queue.tailIdx - s.queue.commitIdx) < r.total
    · rw [if_pos hover]
      exact h.producer_fails hcall (by decide)
    · rw [if_neg hover]
      refine h.producer_goto rfl h.allocated ⟨hcall, hr, rfl, ?_⟩
      rw [BitVec.lt_def, Nat.not_lt, hr.total_eq, toNat_ofNat_of_lt hr.lt, h.capacity_eq,
        h.tail_eq, h.commit_eq] at hover
      exact hover.trans (toNat_room_le h.tail_le)
  | copy r loaded segs rest =>
    obtain ⟨hcall, hr, rfl, hfits⟩ := hasks
    cases segs with
    | nil =>
      have hT := h.tail_le
      refine h.producer_ret hcall (pushedBy_of_isEnqueue hcall []).1 rfl h.allocated ?_ (by omega)
      rw [SpmcQueue.stepProducer, hr.total_eq]
      rfl
    | cons seg segs =>
      obtain ⟨off, len⟩ := seg
      refine h.producer_goto rfl ?_ ⟨hcall, hr, rfl, hfits⟩
      rw [SpmcQueue.stepProducer, copyIn, Option.isSome_map]
      exact h.allocated

omit [DecidableEq ι] in
/-- A call of the producer begins with the invariant. -/
theorem Indexed.beginProducer (h : Indexed k s) (hv : call.Valid)
    {next : Next SpmcProducerPc Reply} (hbegin : s.queue.beginProducer call = some next) :
    Indexed k (s.producerGoes call s.queue next) := by
  obtain ⟨x, hx, rfl⟩ := Option.map_eq_some_iff.mp hbegin
  rw [h.allocated] at hx
  obtain ⟨hcall, ⟨rfl, _⟩ | ⟨r, rfl, hr⟩⟩ := checkEnqueue_spec hx hv
  · exact h.producer_fails hcall (by decide)
  · exact h.producer_goto rfl h.allocated ⟨hcall, hr⟩

/-- **A ticket is taken**: the head and what is outstanding grow by its size. -/
theorem Indexed.claims (h : Indexed k s) {r : DequeueRequest}
    (hpc : s.consumers i = some (call, .claim r)) (hcall : call.IsDequeue)
    (hr : r.Takes call.asked) :
    Indexed k (s.consumerGoes i call { s.queue with headIdx := s.queue.headIdx + r.total }
      (s.positions.after i s.queue (.claim r)) (.goto (.loadTail r s.queue.headIdx))) := by
  have hfree : i ∉ s.positions.line := fun hmem => (holds_iff hpc).mp ((h.mem_line i).mp hmem)
  have htotal : r.total.toNat = call.asked := hr.toNat_total
  refine h.consumer_moves rfl ?_ h.commit_eq (data_nil_of_isDequeue hcall) (le_refl _) ?_ rfl ?_ ?_
    ?_ ?_
  · rw [Positions.after, htotal, BitVec.ofNat_add, ← hr.total_eq, ← h.head_eq]
  · rw [Positions.after, List.map_append, map_size_of_free hfree, List.sum_append, htotal,
      h.head_sum, List.map_singleton, List.sum_singleton, size_of_goto, outstanding]
    exact Nat.add_assoc _ _ _
  · exact Positions.nodup_claim h.nodup hfree _ r
  · simp [Positions.after, Next.Holds, SpmcConsumerPc.Holds]
  · intro j hj
    simp [Positions.after, hj]
  · rintro pc ⟨⟩
    exact ⟨hcall, hr⟩

/-- What consumer `i` asks for is part of what is outstanding. -/
theorem outstanding_eq (hmem : i ∈ s.positions.line) :
    s.outstanding = s.size i + ((s.positions.line.erase i).map s.size).sum :=
  (List.sum_map_erase s.size hmem).symm

/-- **A ticket is given back**: the head and what is outstanding go down by its size. -/
theorem Indexed.rewinds (h : Indexed k s) {r : DequeueRequest} {ticket : Size}
    (hpc : s.consumers i = some (call, .rewind r ticket)) (hcall : call.IsDequeue)
    (hr : r.Takes call.asked) :
    Indexed k (s.consumerGoes i call { s.queue with headIdx := s.queue.headIdx - r.total }
      (s.positions.after i s.queue (.rewind r ticket)) (.ret (.status .kUnderflow []))) := by
  have hmem : i ∈ s.positions.line := (h.mem_line i).mpr ((holds_iff hpc).mpr trivial)
  have htotal : r.total.toNat = call.asked := hr.toNat_total
  have hsum := h.head_sum
  rw [outstanding_eq hmem, size_of_inside hpc, ← htotal] at hsum
  refine h.consumer_moves rfl ?_ h.commit_eq (data_nil_of_isDequeue hcall) (le_refl _) ?_ ?_
    (h.nodup.erase i) ?_ ?_ ?_
  · rw [Positions.after, ← ofNat_sub_ofNat (by omega), ← h.head_eq, htotal, ← hr.total_eq]
  · rw [Positions.after, map_size_of_free h.nodup.not_mem_erase]
    dsimp only
    omega
  · simp [Positions.after, Next.receipts, delivery_of_fails]
  · simp [Positions.after, Next.Holds, h.nodup.not_mem_erase]
  · intro j hj
    simp [Positions.after, List.mem_erase_of_ne hj]
  · rintro pc ⟨⟩

/-- **A ticket is committed**: what was outstanding is behind the commit index. -/
theorem Indexed.commits (h : Indexed k s) {r : DequeueRequest} {ticket : Size} {out : List Byte}
    (hpc : s.consumers i = some (call, .copy r ticket [] out)) (hcall : call.IsDequeue)
    (hr : r.Takes call.asked) (hturn : s.queue.commitIdx = ticket) :
    Indexed k (s.consumerGoes i call { s.queue with commitIdx := ticket + r.total }
      (s.positions.after i s.queue (.copy r ticket [] out)) (.ret (.status .kOk out))) := by
  have hmem : i ∈ s.positions.line := (h.mem_line i).mpr ((holds_iff hpc).mpr trivial)
  have htotal : r.total.toNat = call.asked := hr.toNat_total
  have hsum := h.head_sum
  rw [outstanding_eq hmem, size_of_inside hpc, ← htotal] at hsum
  rw [Positions.after, if_pos hturn]
  refine h.consumer_moves rfl h.head_eq ?_ (data_nil_of_isDequeue hcall) (Nat.le_add_right _ _) ?_
    ?_ (h.nodup.erase i) ?_ ?_ ?_
  · rw [BitVec.ofNat_add, ← h.commit_eq, htotal, ← hr.total_eq, hturn]
  · rw [map_size_of_free h.nodup.not_mem_erase]
    dsimp only
    omega
  · simp [Next.receipts, delivery_of_isDequeue hcall, htotal]
  · simp [Next.Holds, h.nodup.not_mem_erase]
  · intro j hj
    simp [List.mem_erase_of_ne hj]
  · rintro pc ⟨⟩

/-- **A consumer's steps keep the invariant.** -/
theorem Indexed.stepConsumer (h : Indexed k s) {pc : SpmcConsumerPc}
    (hpc : s.consumers i = some (call, pc)) :
    Indexed k (s.consumerGoes i call (s.queue.stepConsumer pc).1 (s.positions.after i s.queue pc)
      (s.queue.stepConsumer pc).2) := by
  have hasks := h.consumer hpc
  have hholds := holds_iff hpc
  have hsize : s.Holds i → s.size i = call.asked := fun _ => size_of_inside hpc
  have hgoto {pc' : SpmcConsumerPc} (hself : s.Holds i ↔ pc'.Holds) (hasks' : pc'.Asks call) :
      Indexed k (s.consumerGoes i call s.queue s.positions (.goto pc')) :=
    h.consumer_stays hasks'.data_nil hself hsize rfl fun _ heq => Next.goto.inj heq ▸ hasks'
  have hpeeked {n : Size} {reply : Reply} (hcall : call = .peekBytes n) (hfree : ¬ pc.Holds) :
      Indexed k (s.consumerGoes i call s.queue s.positions (.ret reply)) := by
    subst hcall
    refine h.consumer_stays rfl (hholds.trans (iff_of_false hfree id)) hsize rfl ?_
    rintro pc ⟨⟩
  cases pc with
  | claim r => exact h.claims hpc hasks.1 hasks.2
  | loadTail r ticket =>
    rw [SpmcQueue.stepConsumer]
    by_cases hunder : s.queue.tailIdx - ticket < r.total
    · rw [if_pos hunder]
      exact hgoto hholds hasks
    · rw [if_neg hunder]
      exact hgoto hholds hasks
  | rewind r ticket => exact h.rewinds hpc hasks.1 hasks.2
  | copy r ticket segs out =>
    cases segs with
    | nil =>
      by_cases hturn : s.queue.commitIdx = ticket
      · have hnext := h.commits hpc hasks.1 hasks.2 hturn
        rwa [SpmcQueue.stepConsumer, if_pos hturn]
      · rw [SpmcQueue.stepConsumer, Positions.after, if_neg hturn, if_neg hturn]
        exact hgoto hholds hasks
    | cons seg segs => exact hgoto hholds hasks
  | peekLoadCommit n => exact hgoto hholds hasks
  | peekLoadTail n commit =>
    obtain ⟨m, hcall⟩ := hasks
    rw [SpmcQueue.stepConsumer]
    by_cases hunder : s.queue.tailIdx - commit < n
    · rw [if_pos hunder]
      exact hpeeked hcall id
    · rw [if_neg hunder]
      exact hgoto hholds ⟨m, hcall⟩
  | peekCopy segs out =>
    obtain ⟨m, hcall⟩ := hasks
    cases segs with
    | nil => exact hpeeked hcall id
    | cons seg segs => exact hgoto hholds ⟨m, hcall⟩

/-- A call of a consumer begins with the invariant. -/
theorem Indexed.beginConsumer (h : Indexed k s) (hidle : s.consumers i = none) (hv : call.Valid)
    {next : Next SpmcConsumerPc Reply} (hbegin : s.queue.beginConsumer call = some next) :
    Indexed k (s.consumerGoes i call s.queue s.positions next) := by
  have hfree : ¬ s.Holds i := by simp [Holds, hidle]
  have hsize : s.Holds i → s.size i = call.asked := fun hholds => absurd hholds hfree
  have hdequeue (hmap : (checkDequeue s.queue.buffer.isSome call).map
      (Next.ofCheck SpmcConsumerPc.claim) = some next) :
      Indexed k (s.consumerGoes i call s.queue s.positions next) := by
    obtain ⟨x, hx, rfl⟩ := Option.map_eq_some_iff.mp hmap
    rw [h.allocated] at hx
    obtain ⟨hcall, ⟨rfl, _⟩ | ⟨r, rfl, hr⟩⟩ := checkDequeue_spec hx hv
    · refine h.consumer_stays (data_nil_of_isDequeue hcall) (iff_of_false hfree id) hsize ?_ ?_
      · simp [Next.ofCheck, Next.receipts, delivery_of_fails]
      · rintro pc ⟨⟩
    · refine h.consumer_stays (data_nil_of_isDequeue hcall) (iff_of_false hfree id) hsize rfl ?_
      rintro pc ⟨⟩
      exact ⟨hcall, hr⟩
  cases call with
  | peekBytes n =>
    obtain rfl := Option.some.inj hbegin
    rw [h.allocated, if_neg (by decide)]
    by_cases hn : n = 0#64
    · rw [if_pos hn]
      refine h.consumer_stays rfl (iff_of_false hfree id) hsize rfl ?_
      rintro pc ⟨⟩
    · rw [if_neg hn]
      refine h.consumer_stays rfl (iff_of_false hfree id) hsize rfl ?_
      rintro pc ⟨⟩
      exact ⟨n, rfl⟩
  | _ => exact hdequeue hbegin

/-- **Every step keeps the invariant.** -/
theorem Indexed.step (h : Indexed k s) (hv : a.Valid) (hstep : s.step a = some s') :
    Indexed k s' := by
  cases stepped_of_step hstep with
  | produce _ hbegin => exact h.beginProducer hv hbegin
  | consume hidle hbegin => exact h.beginConsumer hidle hv hbegin
  | stepProducer hpc => exact h.stepProducer hpc
  | stepConsumer hpc => exact h.stepConsumer hpc

omit [DecidableEq ι] in
/-- An empty queue starts with the invariant. -/
theorem indexed_init {q : SpmcQueue} (hi : q.Settled k 0 0) (hbuf : q.buffer.isSome) :
    Indexed k (init q : SpmcSystem ι) where
  k_lt := hi.k_lt
  capacity_eq := hi.capacity_eq
  tail_eq := hi.tail_eq
  head_eq := hi.head_eq
  commit_eq := hi.commit_eq
  allocated := hbuf
  head_sum := rfl
  commit_sum := rfl
  tail_le := Nat.zero_le _
  nodup := .nil
  mem_line := by simp [init, Holds]
  producer := by simp [init]
  consumer := by simp [init]

end Steps

/-! ## The order of the indices -/

/-- **The indices are in order**, and what `size` and `available_space` say agrees with the
producer's check. -/
structure IndicesOrdered (s : SpmcSystem ι) : Prop where
  commit_le_head : s.positions.commit ≤ s.positions.head
  head_le_tail : s.positions.head ≤ s.enqueued.length
  tail_le : s.enqueued.length ≤ s.positions.commit + s.queue.capacity.toNat
  size_le : s.queue.size ≤ s.queue.capacity
  availableSpace_le : s.queue.availableSpace ≤ s.queue.capacity
  enqueue_fits : s.producer = none → ∀ data : List Byte, data ≠ [] →
    data.length = s.queue.availableSpace.toNat → (s.queue.enqueueBytes data).1 ≠ .kOverflow

section Order

variable {s : SpmcSystem ι} {k : ℕ}

omit [DecidableEq ι] in
theorem Indexed.capacity_toNat (h : Indexed k s) : s.queue.capacity.toNat = 2 ^ k := by
  rw [h.capacity_eq, toNat_ofNat_of_lt (Nat.pow_lt_pow_right (by norm_num) h.k_lt)]

omit [DecidableEq ι] in
theorem Indexed.head_eq_requested (h : Indexed k s) : s.positions.head = s.requested := by
  rw [h.head_sum, h.commit_sum, requested]

omit [DecidableEq ι] in
/-- With the head within the stream, `size` is its distance from the tail. -/
theorem Indexed.size_toNat (h : Indexed k s) (hhead : s.positions.head ≤ s.enqueued.length) :
    s.queue.size.toNat = s.enqueued.length - s.positions.head := by
  have hpow : 2 ^ k < 2 ^ 64 := Nat.pow_lt_pow_right (by norm_num) h.k_lt
  have hT := h.tail_le
  have hsum := h.head_sum
  rw [SpmcQueue.size, h.tail_eq, h.head_eq]
  exact toNat_ofNat_sub_ofNat hhead (by omega)

omit [DecidableEq ι] in
/-- …and `available_space` is what that leaves of the capacity. -/
theorem Indexed.availableSpace_toNat (h : Indexed k s)
    (hhead : s.positions.head ≤ s.enqueued.length) :
    s.queue.availableSpace.toNat = 2 ^ k - (s.enqueued.length - s.positions.head) := by
  have hT := h.tail_le
  have hsum := h.head_sum
  have hsize := h.size_toNat hhead
  have hle : s.queue.size ≤ s.queue.capacity := by
    rw [BitVec.le_def, hsize, h.capacity_toNat]
    omega
  rw [SpmcQueue.availableSpace, BitVec.toNat_sub_of_le hle, hsize, h.capacity_toNat]

omit [DecidableEq ι] in
/-- The producer's check refuses what does not fit above the commit index. -/
theorem Indexed.overflow_iff (h : Indexed k s) (hhead : s.positions.head ≤ s.enqueued.length)
    {data : List Byte} (hd : data ≠ []) (hlt : data.length < 2 ^ 64) :
    (s.queue.enqueueBytes data).1 = .kOverflow
      ↔ 2 ^ k < s.enqueued.length - s.positions.commit + data.length := by
  have hsum := h.head_sum
  have hzero : sizeWord data = 0#64 ↔ data = [] :=
    (ofNat_eq_zero_iff hlt).trans List.length_eq_zero_iff
  obtain ⟨buffer, hb⟩ := Option.isSome_iff_exists.mp h.allocated
  have hcheck : s.queue.capacity - (s.queue.tailIdx - s.queue.commitIdx) < sizeWord data
      ↔ 2 ^ k < s.enqueued.length - s.positions.commit + data.length := by
    rw [h.capacity_eq, h.tail_eq, h.commit_eq]
    exact lacks_room_iff h.k_lt (by omega) h.tail_le hlt
  rw [enqueueBytes, hb, ← hcheck]
  dsimp only
  rw [if_neg (hzero.not.mpr hd), enqueueSized]
  split_ifs with hover <;> simp [hover]

/-- A ticket outstanding is space promised that is not there. -/
theorem Indexed.outstanding_pos (h : Indexed k s) {i : ι} (hi : s.Holds i) : 0 < s.outstanding := by
  have hmem := (h.mem_line i).mpr hi
  obtain ⟨call, pc, hpc, hholds⟩ := hi
  have hasks := h.consumer hpc
  rw [outstanding_eq hmem, size_of_inside hpc]
  cases pc with
  | loadTail _ _ | rewind _ _ | copy _ _ _ _ =>
    have := hasks.2.ne_zero
    omega
  | claim _ | peekLoadCommit _ | peekLoadTail _ _ | peekCopy _ _ => cases hholds

/-- With the indices in order, and the producer ready to enqueue, no ticket is outstanding: an
enqueue of all the space there should be would overflow. -/
theorem Indexed.free_of_ordered (h : Indexed k s) (hord : s.IndicesOrdered)
    (hidle : s.producer = none) (i : ι) : ¬ s.Holds i := by
  intro hi
  have hpow : 2 ^ k < 2 ^ 64 := Nat.pow_lt_pow_right (by norm_num) h.k_lt
  have hT := h.tail_le
  have hsum := h.head_sum
  have hhead := hord.head_le_tail
  have hpos := h.outstanding_pos hi
  have havail := h.availableSpace_toNat hhead
  have hdata : (List.replicate s.queue.availableSpace.toNat (0 : Byte)).length
      = s.queue.availableSpace.toNat := List.length_replicate
  have hne : List.replicate s.queue.availableSpace.toNat (0 : Byte) ≠ [] := by
    rw [← List.length_pos_iff, hdata]
    omega
  refine hord.enqueue_fits hidle _ hne hdata ((h.overflow_iff hhead hne ?_).mpr ?_)
  · rw [hdata]
    exact BitVec.isLt _
  · rw [hdata]
    omega

omit [DecidableEq ι] in
/-- **The indices are in order** where nothing is asked for that was not enqueued, and no ticket is
outstanding when the producer is ready to enqueue. -/
theorem Indexed.ordered (h : Indexed k s) (hasked : s.requested ≤ s.enqueued.length)
    (hfree : s.producer = none → ∀ i, ¬ s.Holds i) : s.IndicesOrdered := by
  have hpow : 2 ^ k < 2 ^ 64 := Nat.pow_lt_pow_right (by norm_num) h.k_lt
  have hT := h.tail_le
  have hsum := h.head_sum
  have hhead : s.positions.head ≤ s.enqueued.length := h.head_eq_requested.trans_le hasked
  have hsize := h.size_toNat hhead
  have havail := h.availableSpace_toNat hhead
  refine ⟨by omega, hhead, by rw [h.capacity_toNat]; omega, ?_, ?_, ?_⟩
  · rw [BitVec.le_def, hsize, h.capacity_toNat]
    omega
  · rw [BitVec.le_def, havail, h.capacity_toNat]
    omega
  · intro hidle data hd hlen
    have hline : s.positions.line = [] := List.eq_nil_iff_forall_not_mem.mpr fun i hi =>
      hfree hidle i ((h.mem_line i).mp hi)
    have hnone : s.outstanding = 0 := by rw [outstanding, hline]; rfl
    rw [Ne, h.overflow_iff hhead hd (hlen ▸ BitVec.isLt _)]
    omega

/-- **In every state reached the indices name their positions, and they are in order exactly when
the dequeues have not asked for more than was enqueued and, with the producer ready to enqueue, none
of them is between its `fetch_add` and its rewind or commit.** -/
theorem indices_ordered_iff {mem : Allocator} {n : Size} {q : SpmcQueue}
    (hq : SpmcQueue.reserve mem n = some q) (hbuf : q.buffer.isSome)
    (hrun : Reaches SpmcSystem.step (fun _ a => a.Valid) (init q) s) :
    (s.queue.commitIdx = BitVec.ofNat 64 s.positions.commit
        ∧ s.queue.headIdx = BitVec.ofNat 64 s.positions.head
        ∧ s.queue.tailIdx = BitVec.ofNat 64 s.enqueued.length)
      ∧ (s.IndicesOrdered ↔ s.requested ≤ s.enqueued.length
        ∧ (s.producer = none → ∀ i, ¬ s.Holds i)) := by
  obtain ⟨k, _, _, hinit, _⟩ := SpmcQueue.settled_of_reserve hq hbuf
  have h : Indexed k s :=
    hrun.invariant (indexed_init hinit hbuf) fun h hv hstep => h.step hv hstep
  refine ⟨⟨h.commit_eq, h.head_eq, h.tail_eq⟩, fun hord => ?_, fun ⟨hasked, hfree⟩ => ?_⟩
  · exact ⟨h.head_eq_requested ▸ hord.head_le_tail, h.free_of_ordered hord⟩
  · exact h.ordered hasked hfree

/-- A full queue of eight bytes, four of them claimed and not yet copied: `available_space` is four,
and an enqueue of four bytes overflows. -/
theorem indices_disordered : ∃ q s, SpmcQueue.reserve .zeroed 8#64 = some q
    ∧ execute SpmcSystem.step (fun _ a => decide a.Valid) (init q : SpmcSystem Bool)
        [.produce (.enqueueBytes [1, 2, 3, 4, 5, 6, 7, 8]),
          .stepProducer, .stepProducer, .stepProducer, .stepProducer,
          .consume false (.dequeueBytes 4#64), .stepConsumer false] = some s
    ∧ s.queue.availableSpace = 4#64
    ∧ (s.queue.enqueueBytes [9, 10, 11, 12]).1 = .kOverflow
    ∧ ¬ s.IndicesOrdered := by
  obtain ⟨s, hs, hout⟩ : ∃ s, execute SpmcSystem.step (fun _ a => decide a.Valid)
      (init { buffer := some (List.replicate 72 0), capacity := 8#64, mask := 7#64 } :
        SpmcSystem Bool)
      [.produce (.enqueueBytes [1, 2, 3, 4, 5, 6, 7, 8]),
        .stepProducer, .stepProducer, .stepProducer, .stepProducer,
        .consume false (.dequeueBytes 4#64), .stepConsumer false] = some s
      ∧ (s.producer.isNone, s.queue.availableSpace, (s.queue.enqueueBytes [9, 10, 11, 12]).1)
        = (true, 4#64, .kOverflow) :=
    Option.map_eq_some_iff.mp rfl
  obtain ⟨hidle, hspace, hover⟩ := by simpa using hout
  refine ⟨_, s, rfl, hs, hspace, hover, fun hord => ?_⟩
  exact hord.enqueue_fits hidle [9, 10, 11, 12] (by simp) (by rw [hspace]; rfl) hover

/-- Four of eight bytes dequeued, nobody in a call. -/
theorem indices_ordered_iff_eight : ∃ q s, SpmcQueue.reserve .zeroed 8#64 = some q
    ∧ execute SpmcSystem.step (fun _ a => decide a.Valid) (init q : SpmcSystem Bool)
        [.produce (.enqueueBytes [1, 2, 3, 4, 5, 6, 7, 8]),
          .stepProducer, .stepProducer, .stepProducer, .stepProducer,
          .consume false (.dequeueBytes 4#64), .stepConsumer false, .stepConsumer false,
          .stepConsumer false, .stepConsumer false] = some s
    ∧ s.queue.availableSpace = 4#64 ∧ s.IndicesOrdered := by
  obtain ⟨s, hs, hout⟩ : ∃ s, execute SpmcSystem.step (fun _ a => decide a.Valid)
      (init { buffer := some (List.replicate 72 0), capacity := 8#64, mask := 7#64 } :
        SpmcSystem Bool)
      [.produce (.enqueueBytes [1, 2, 3, 4, 5, 6, 7, 8]),
        .stepProducer, .stepProducer, .stepProducer, .stepProducer,
        .consume false (.dequeueBytes 4#64), .stepConsumer false, .stepConsumer false,
        .stepConsumer false, .stepConsumer false] = some s
      ∧ (s.queue.availableSpace, decide (s.requested ≤ s.enqueued.length), s.consumers true,
          s.consumers false) = (4#64, true, none, none) :=
    Option.map_eq_some_iff.mp rfl
  obtain ⟨hspace, hasked, htrue, hfalse⟩ := by simpa using hout
  have hq : SpmcQueue.reserve .zeroed 8#64
      = some { buffer := some (List.replicate 72 0), capacity := 8#64, mask := 7#64 } := rfl
  have hfree (i : Bool) : ¬ s.Holds i := by cases i <;> simp [Holds, htrue, hfalse]
  exact ⟨_, s, hq, hs, hspace,
    (indices_ordered_iff hq rfl (Reaches.of_execute of_decide_eq_true hs)).2.mpr
      ⟨hasked, fun _ => hfree⟩⟩

end Order

end SpmcSystem

end Femtolog
