import Femtolog.Queue.SpmcIndices

/-!
# Queue/SpmcPeek — a peek beside the threads that move the indices

A peek holds no ticket: between its loads and its copies the consumers may commit past its range and
the producer may write over it.  What the buffer keeps, in every run, is the last `2^k` bytes
written (`Latest`).  So a peek yields the bytes at its positions as long as each of its copies comes
before the producer has gone a whole turn past it (`SpmcPeeks.yields_stream`), and not otherwise
(`SpmcPeeks.yields_overwritten`).
-/

namespace Femtolog

open SpmcQueue

variable {ι : Type} [DecidableEq ι]

/-! ## What the buffer keeps -/

/-- The enqueue whose check the producer is about to make, if it is about to make one, is refused
or no longer than the queue. -/
def SpmcProducerPc.AdmitsCapacity (q : SpmcQueue) : SpmcProducerPc → Prop
  | .loadCommit r tail => q.capacity - (tail - q.commitIdx) < r.total ∨ r.total ≤ q.capacity
  | _ => True

instance (q : SpmcQueue) : DecidablePred (SpmcProducerPc.AdmitsCapacity q)
  | .loadCommit r tail =>
    inferInstanceAs (Decidable (q.capacity - (tail - q.commitIdx) < r.total ∨ r.total ≤ q.capacity))
  | .loadTail _ | .copy _ _ _ _ => inferInstanceAs (Decidable True)

/-- A consumer's steps touch the indices only. -/
theorem SpmcQueue.stepConsumer_storage (q : SpmcQueue) (pc : SpmcConsumerPc) :
    ((q.stepConsumer pc).1.buffer, (q.stepConsumer pc).1.mask) = (q.buffer, q.mask) := by
  cases pc with
  | claim _ | rewind _ _ | peekLoadCommit _ => rfl
  | loadTail _ _ | peekLoadTail _ _ =>
    rw [SpmcQueue.stepConsumer]
    split_ifs <;> rfl
  | copy _ _ segs _ =>
    cases segs with
    | nil =>
      rw [SpmcQueue.stepConsumer]
      split_ifs <;> rfl
    | cons seg segs => rfl
  | peekCopy segs _ => cases segs <;> rfl

/-- The calls a consumer begins enqueue nothing. -/
theorem SpmcQueue.data_nil_of_beginConsumer {q : SpmcQueue} {call : Call}
    {next : Next SpmcConsumerPc Reply} (h : q.beginConsumer call = some next) : call.data = [] := by
  cases call with
  | enqueueBytes _ | enqueueBulk _ => cases h
  | _ => rfl

namespace SpmcSystem

/-- What the producer has copied of the enqueue it is in. -/
def inFlight (s : SpmcSystem ι) : List Byte :=
  match s.producer with
  | some (call, .copy _ _ _ rest) => call.data.take (call.data.length - rest.length)
  | _ => []

/-- The enqueued stream, and behind it what the producer has copied and not yet published. -/
def written (s : SpmcSystem ι) : List Byte := s.enqueued ++ s.inFlight

omit [DecidableEq ι] in
theorem inFlight_of_copy {s : SpmcSystem ι} {call : Call} {r : EnqueueRequest} {tail : Size}
    {segs : List (ℕ × ℕ)} {done rest : List Byte}
    (hpc : s.producer = some (call, .copy r tail segs rest)) (hdata : call.data = done ++ rest) :
    s.inFlight = done := by
  simp [inFlight, hpc, hdata]

/-- The check the producer makes, if the step makes one, admits no more than the capacity. -/
def AdmitsCapacity (s : SpmcSystem ι) : SpmcAction ι → Prop
  | .stepProducer => ∀ inside ∈ s.producer, inside.2.AdmitsCapacity s.queue
  | _ => True

instance (s : SpmcSystem ι) : DecidablePred s.AdmitsCapacity
  | .stepProducer => inferInstanceAs (Decidable (∀ inside ∈ s.producer, _))
  | .produce _ | .consume _ _ | .stepConsumer _ => inferInstanceAs (Decidable True)

/-- **The buffer keeps the last `2^k` bytes written**, and an enqueue under way knows where its next
ones go. -/
structure Latest (k : ℕ) (s : SpmcSystem ι) : Prop where
  mask_eq : s.queue.mask = BitVec.ofNat 64 (2 ^ k) - 1#64
  keep : Keeps s.queue.buffer k s.written (s.written.length - 2 ^ k)
  laid : ∀ {call r tail segs rest}, s.producer = some (call, .copy r tail segs rest) →
    call.data = s.inFlight ++ rest ∧ Covers (2 ^ k) s.written.length segs rest.length

section Latest

variable {s s' : SpmcSystem ι} {i : ι} {k : ℕ} {call : Call} {a : SpmcAction ι}

omit [DecidableEq ι] in
/-- A step that writes nothing. -/
theorem Latest.frame (h : Latest k s) (hqueue : (s'.queue.buffer, s'.queue.mask)
      = (s.queue.buffer, s.queue.mask)) (henq : s'.enqueued = s.enqueued)
    (hproducer : s'.producer = s.producer) : Latest k s' := by
  obtain ⟨hbuf, hmask⟩ := Prod.mk.inj hqueue
  have hflight : s'.inFlight = s.inFlight := by rw [inFlight, inFlight, hproducer]
  have hwritten : s'.written = s.written := by rw [written, written, henq, hflight]
  refine ⟨hmask.trans h.mask_eq, ?_, fun hpc => ?_⟩
  · rw [hbuf, hwritten]
    exact h.keep
  · rw [hflight, hwritten]
    exact h.laid (hproducer ▸ hpc)

omit [DecidableEq ι] in
/-- A move of the producer outside its copies. -/
theorem Latest.outside (h : Latest k s) (hbefore : s.inFlight = [])
    {next : Next SpmcProducerPc Reply}
    (hret : ∀ reply, next = .ret reply → Stream.pushedBy (call, reply) = [])
    (hgoto : ∀ pc, next = .goto pc → ∀ r tail segs rest, pc ≠ .copy r tail segs rest) :
    Latest k (s.producerGoes call s.queue next) := by
  have henq : (s.producerGoes call s.queue next).enqueued = s.enqueued := by
    cases next with
    | goto pc => exact enqueued_producer_goto pc
    | ret reply => rw [enqueued_producer_ret, hret reply rfl, List.append_nil]
  have hflight : (s.producerGoes call s.queue next).inFlight = [] := by
    cases next with
    | ret reply => rfl
    | goto pc =>
      cases pc with
      | loadTail r | loadCommit r tail => rfl
      | copy r tail segs rest => exact absurd rfl (hgoto _ rfl r tail segs rest)
  have hwritten : (s.producerGoes call s.queue next).written = s.written := by
    rw [written, written, henq, hflight, hbefore]
  refine ⟨h.mask_eq, ?_, ?_⟩
  · rw [hwritten]
    exact h.keep
  · intro call' r tail segs rest hpc
    cases next with
    | ret reply => cases hpc
    | goto pc => exact absurd (Prod.mk.inj (Option.some.inj hpc)).2 (hgoto _ rfl r tail segs rest)

omit [DecidableEq ι] in
/-- **A move of the producer into a copy**, of which `done` is written. -/
theorem latest_copy {q : SpmcQueue} {r : EnqueueRequest} {tail : Size} {segs : List (ℕ × ℕ)}
    {done rest : List Byte} (hmask : q.mask = BitVec.ofNat 64 (2 ^ k) - 1#64)
    (hdata : call.data = done ++ rest)
    (hkeep : Keeps q.buffer k (s.enqueued ++ done) ((s.enqueued ++ done).length - 2 ^ k))
    (hcov : Covers (2 ^ k) (s.enqueued ++ done).length segs rest.length) :
    Latest k (s.producerGoes call q (.goto (.copy r tail segs rest))) := by
  have hflight : (s.producerGoes call q (.goto (.copy r tail segs rest))).inFlight = done :=
    inFlight_of_copy rfl hdata
  have hwritten : (s.producerGoes call q (.goto (.copy r tail segs rest))).written
      = s.enqueued ++ done := by rw [written, hflight, enqueued_producer_goto]
  refine ⟨hmask, ?_, ?_⟩
  · rw [hwritten]
    exact hkeep
  · intro call' r' tail' segs' rest' hpc
    obtain ⟨rfl, hcopy⟩ := Prod.mk.inj (Option.some.inj hpc)
    cases hcopy
    rw [hwritten, hflight]
    exact ⟨hdata, hcov⟩

omit [DecidableEq ι] in
/-- The store of the tail writes nothing: what was under way is enqueued. -/
theorem Latest.stores (h : Latest k s) {r : EnqueueRequest} (hcall : call.IsEnqueue)
    (hdata : call.data = s.inFlight) :
    Latest k (s.producerGoes call { s.queue with tailIdx := s.queue.tailIdx + r.total }
      (.ret (.status .kOk []))) := by
  have hwritten : (s.producerGoes call { s.queue with tailIdx := s.queue.tailIdx + r.total }
      (.ret (.status .kOk []))).written = s.written := by
    rw [written, enqueued_producer_ret, (pushedBy_of_isEnqueue hcall []).1, written, ← hdata]
    exact List.append_nil _
  refine ⟨h.mask_eq, ?_, ?_⟩
  · rw [hwritten]
    exact h.keep
  · rintro call' r' tail' segs' rest' ⟨⟩

omit [DecidableEq ι] in
/-- **The producer's steps keep the last bytes written.** -/
theorem Latest.stepProducer (h : Latest k s) (hi : Indexed k s)
    (hadmits : s.AdmitsCapacity .stepProducer) {pc : SpmcProducerPc}
    (hpc : s.producer = some (call, pc)) :
    Latest k (s.producerGoes call (s.queue.stepProducer pc).1 (s.queue.stepProducer pc).2) := by
  have hasks := hi.producer hpc
  have hnow := hadmits _ hpc
  cases pc with
  | loadTail r =>
    refine h.outside (by rw [inFlight, hpc]) ?_ ?_
    · rintro reply ⟨⟩
    · rintro pc ⟨⟩ r tail segs rest ⟨⟩
  | loadCommit r loaded =>
    obtain ⟨hcall, hr, rfl⟩ := hasks
    have hbefore : s.inFlight = [] := by rw [inFlight, hpc]
    rw [SpmcQueue.stepProducer]
    by_cases hover : s.queue.capacity - (s.queue.tailIdx - s.queue.commitIdx) < r.total
    · rw [if_pos hover]
      refine h.outside hbefore ?_ ?_
      · rintro reply ⟨⟩
        rfl
      · rintro pc ⟨⟩
    · rw [if_neg hover]
      have hlen : call.data.length ≤ 2 ^ k := by
        have hle := hnow.resolve_left hover
        rw [BitVec.le_def, hr.total_eq, toNat_ofNat_of_lt hr.lt, hi.capacity_toNat] at hle
        exact hle
      have hcov : Covers (2 ^ k) s.enqueued.length
          (bulkSegments s.queue.mask s.queue.tailIdx r.sizes) r.data.length := by
        rw [hi.tail_eq, hr.data_eq]
        exact hr.covers hi.k_lt h.mask_eq _ hlen
      have hdata : call.data = [] ++ r.data := hr.data_eq.symm
      have hkeep := h.keep
      rw [written, hbefore] at hkeep
      exact latest_copy h.mask_eq hdata hkeep ((List.append_nil s.enqueued).symm ▸ hcov)
  | copy r loaded segs rest =>
    obtain ⟨hcall, hr, rfl, _⟩ := hasks
    obtain ⟨hdata, hcov⟩ := h.laid hpc
    cases segs with
    | nil =>
      obtain rfl : rest = [] := List.eq_nil_of_length_eq_zero hcov.eq_zero_of_nil
      rw [List.append_nil] at hdata
      exact h.stores hcall hdata
    | cons seg segs =>
      obtain ⟨off, len⟩ := seg
      obtain ⟨hkeep, hlaid⟩ := h.keep.copyIn_latest hcov
      rw [written, List.append_assoc] at hkeep hlaid
      refine latest_copy h.mask_eq ?_ hkeep hlaid
      rw [List.append_assoc, List.take_append_drop, hdata]

/-- **Every step keeps the last bytes written**, as long as no enqueue longer than the queue is
admitted. -/
theorem Latest.step (h : Latest k s) (hi : Indexed k s) (hadmits : s.AdmitsCapacity a)
    (hstep : s.step a = some s') : Latest k s' := by
  cases stepped_of_step hstep with
  | @produce call next hidle hbegin =>
    obtain ⟨x, hx, rfl⟩ := Option.map_eq_some_iff.mp hbegin
    rw [hi.allocated] at hx
    refine h.outside (by rw [inFlight, hidle]) ?_ ?_
    · intro reply hreply
      obtain ⟨status, rfl, rfl⟩ := Next.eq_error_of_ofCheck hreply
      rcases refused_of_checkEnqueue hx with rfl | rfl <;> rfl
    · intro pc hpc
      cases x with
      | error status => cases hpc
      | ok r =>
        cases hpc
        rintro r' tail segs rest ⟨⟩
  | @consume i call next hidle hbegin =>
    exact h.frame rfl (enqueued_consumerGoes (data_nil_of_beginConsumer hbegin) _) rfl
  | stepProducer hpc => exact h.stepProducer hi hadmits hpc
  | @stepConsumer i call pc hpc =>
    exact h.frame (stepConsumer_storage s.queue pc)
      (enqueued_consumerGoes (hi.consumer hpc).data_nil _) rfl

end Latest

end SpmcSystem

/-! ## The system with its peeks on record -/

/-- What a returned peek yielded, under the size it asked for. -/
def Receipt.peeked : Receipt → Option (ℕ × List Byte)
  | ⟨.peekBytes n, .status .kOk bytes, _⟩ => some (n.toNat, bytes)
  | _ => none

/-- A system, the position of the commit index each consumer's last peek loaded, and what the peeks
that returned `kOk` yielded.  No step of a thread reads the last two. -/
structure SpmcPeeks (ι : Type) where
  system : SpmcSystem ι
  loaded : ι → ℕ
  yielded : List Delivery

/-- The copy the peek is about to make, if it is about to make one, comes when its whole range has
been enqueued and no byte of what is left of it has been written over. -/
def SpmcConsumerPc.Untouched (loaded asked stream written capacity : ℕ) : SpmcConsumerPc → Prop
  | .peekCopy (_ :: _) out =>
    loaded + asked ≤ stream ∧ written ≤ loaded + out.length + capacity
  | _ => True

instance (loaded asked stream written capacity : ℕ) :
    DecidablePred (SpmcConsumerPc.Untouched loaded asked stream written capacity)
  | .peekCopy (_ :: _) out =>
    inferInstanceAs (Decidable (loaded + asked ≤ stream ∧ written ≤ loaded + out.length + capacity))
  | .peekCopy [] _ | .peekLoadCommit _ | .peekLoadTail _ _ => inferInstanceAs (Decidable True)
  | .claim _ | .loadTail _ _ | .rewind _ _ | .copy _ _ _ _ => inferInstanceAs (Decidable True)

namespace SpmcPeeks

/-- A queue at the start, no thread in a call. -/
def init (q : SpmcQueue) : SpmcPeeks ι := ⟨.init q, fun _ => 0, []⟩

/-- The loaded positions after a step. -/
def loads (s : SpmcPeeks ι) : SpmcAction ι → ι → ℕ
  | .stepConsumer i =>
    match s.system.consumers i with
    | some (_, .peekLoadCommit _) => Function.update s.loaded i s.system.positions.commit
    | _ => s.loaded
  | _ => s.loaded

/-- What a peek that returns by the step yields. -/
def yields (s : SpmcPeeks ι) : SpmcAction ι → List Delivery
  | .stepConsumer i =>
    match s.system.consumers i with
    | some (call, .peekCopy [] out) => [⟨s.loaded i, call.asked, out⟩]
    | _ => []
  | _ => []

/-- One step of the system, put on record. -/
def step (s : SpmcPeeks ι) (a : SpmcAction ι) : Option (SpmcPeeks ι) :=
  (s.system.step a).map fun system => ⟨system, s.loads a, s.yielded ++ s.yields a⟩

/-- The copy the step makes, if it makes one of a peek, finds the bytes untouched. -/
def Untouched (s : SpmcPeeks ι) : SpmcAction ι → Prop
  | .stepConsumer i => ∀ inside ∈ s.system.consumers i,
    inside.2.Untouched (s.loaded i) inside.1.asked s.system.enqueued.length
      s.system.written.length s.system.queue.capacity.toNat
  | _ => True

instance (s : SpmcPeeks ι) : DecidablePred s.Untouched
  | .stepConsumer i => inferInstanceAs (Decidable (∀ inside ∈ s.system.consumers i, _))
  | .produce _ | .consume _ _ | .stepProducer => inferInstanceAs (Decidable True)

/-- **Every run of the system is on record.** -/
theorem exists_record {guard : SpmcSystem ι → SpmcAction ι → Prop} {q : SpmcQueue}
    {t : SpmcSystem ι} (hrun : Reaches SpmcSystem.step guard (.init q) t) :
    ∃ s : SpmcPeeks ι, s.system = t ∧ Reaches step (fun s a => guard s.system a) (init q) s := by
  induction hrun with
  | refl => exact ⟨init q, rfl, .refl⟩
  | @tail t t' a _ hguard hstep ih =>
    obtain ⟨s, rfl, hs⟩ := ih
    exact ⟨⟨t', s.loads a, s.yielded ++ s.yields a⟩, rfl,
      hs.tail hguard (by rw [step, hstep, Option.map_some])⟩

/-- **Every peek that returned `kOk` yielded the enqueued bytes at the positions from the commit
index it loaded on.** -/
structure YieldsStream (s : SpmcPeeks ι) : Prop where
  logged : s.system.returned.filterMap Receipt.peeked = s.yielded.map fun d => (d.size, d.bytes)
  bytes : ∀ d ∈ s.yielded, d.ticket + d.size ≤ s.system.enqueued.length
    ∧ d.bytes = slice s.system.enqueued d.ticket d.size

end SpmcPeeks

/-! ## What a peek knows -/

/-- **What a peek knows where it stands**, with the commit index it loaded at position `c`.  Before
its first copy it knows nothing of its range. -/
def SpmcConsumerPc.PeekAt (k : ℕ) (mask : Size) (stream : List Byte) (c : ℕ) (call : Call) :
    SpmcConsumerPc → Prop
  | .peekLoadCommit n => call = .peekBytes n
  | .peekLoadTail n commit => call = .peekBytes n ∧ commit = BitVec.ofNat 64 c
  | .peekCopy segs out => ∃ n, call = .peekBytes n
    ∧ ((segs = segments mask (BitVec.ofNat 64 c) n ∧ out = [])
      ∨ (c + n.toNat ≤ stream.length ∧ Reading (2 ^ k) stream c n.toNat segs out))
  | _ => True

section PeekAt

variable {k c : ℕ} {mask : Size} {stream : List Byte} {call : Call}

/-- The producer's steps leave what a peek knows. -/
theorem SpmcConsumerPc.PeekAt.frame {pc : SpmcConsumerPc} (h : pc.PeekAt k mask stream c call)
    (more : List Byte) : pc.PeekAt k mask (stream ++ more) c call := by
  cases pc with
  | peekCopy segs out =>
    obtain ⟨n, hcall, hstart | ⟨hdata, hread⟩⟩ := h
    · exact ⟨n, hcall, .inl hstart⟩
    · refine ⟨n, hcall, .inr ⟨?_, hread.append_right hdata more⟩⟩
      rw [List.length_append]
      omega
  | _ => exact h

omit [DecidableEq ι] in
/-- **A copy of a peek** that finds its bytes untouched. -/
theorem SpmcConsumerPc.PeekAt.copies {s : SpmcSystem ι} {segs : List (ℕ × ℕ)} {off len : ℕ}
    {out : List Byte} (hi : s.Indexed k) (hl : s.Latest k)
    (h : (peekCopy ((off, len) :: segs) out).PeekAt k s.queue.mask s.enqueued c call)
    (huntouched : (peekCopy ((off, len) :: segs) out).Untouched c call.asked s.enqueued.length
      s.written.length s.queue.capacity.toNat) :
    (peekCopy segs (out ++ copyOut s.queue.buffer off len)).PeekAt k s.queue.mask s.enqueued c
      call := by
  obtain ⟨n, rfl, hstand⟩ := h
  obtain ⟨hdata, hroom⟩ := huntouched
  rw [hi.capacity_toNat] at hroom
  refine ⟨n, rfl, .inr ⟨hdata, ?_⟩⟩
  have hread : Reading (2 ^ k) s.enqueued c n.toNat ((off, len) :: segs) out := by
    rcases hstand with ⟨hsegs, rfl⟩ | ⟨_, hread⟩
    · -- at its first copy its range is within the last turn, so no longer than the queue
      have hwritten : s.enqueued.length ≤ s.written.length := by
        rw [SpmcSystem.written, List.length_append]
        omega
      have hn : n.toNat ≤ 2 ^ k := by
        have hasked : Call.asked (.peekBytes n) = n.toNat := rfl
        rw [List.length_nil] at hroom
        omega
      have hcov := covers_segments hi.k_lt hl.mask_eq c hn
      rw [← eq_ofNat_of_toNat_eq rfl, ← hsegs] at hcov
      exact .start hcov
    · exact hread
  exact hl.keep.copyOut hread (by omega) hdata

/-- A peek with nothing left to copy has its range. -/
theorem SpmcConsumerPc.PeekAt.done {out : List Byte}
    (h : (peekCopy [] out).PeekAt k mask stream c call) :
    c + call.asked ≤ stream.length ∧ out = slice stream c call.asked := by
  obtain ⟨n, rfl, ⟨hsegs, _⟩ | ⟨hdata, hread⟩⟩ := h
  · rw [segments] at hsegs
    split_ifs at hsegs
  · exact ⟨hdata, hread.done⟩

end PeekAt

namespace SpmcPeeks

/-! ## The invariant -/

/-- **The invariant**: the indices name their positions, the buffer keeps the last bytes written,
each peek is right about what it knows, and what was yielded is right. -/
structure Kept (k : ℕ) (s : SpmcPeeks ι) : Prop where
  indexed : s.system.Indexed k
  latest : s.system.Latest k
  peeking : ∀ {i call pc}, s.system.consumers i = some (call, pc) →
    pc.PeekAt k s.system.queue.mask s.system.enqueued (s.loaded i) call
  yielded : s.YieldsStream

section Moves

variable {s : SpmcPeeks ι} {i : ι} {call : Call} {q : SpmcQueue} {p : Positions ι} {k : ℕ}

omit [DecidableEq ι] in
/-- **A move of the producer.** -/
theorem Kept.producer_goes (h : Kept k s) {next : Next SpmcProducerPc Reply}
    (hcall : call.IsEnqueue) (hmask : q.mask = s.system.queue.mask)
    (hi : (s.system.producerGoes call q next).Indexed k)
    (hl : (s.system.producerGoes call q next).Latest k) :
    Kept k ⟨s.system.producerGoes call q next, s.loaded, s.yielded ++ []⟩ := by
  obtain ⟨more, hmore⟩ : ∃ more, (s.system.producerGoes call q next).enqueued
      = s.system.enqueued ++ more := by
    cases next with
    | goto pc => exact ⟨[], by rw [SpmcSystem.enqueued_producer_goto, List.append_nil]⟩
    | ret reply => exact ⟨_, SpmcSystem.enqueued_producer_ret reply⟩
  have hpeeked : (next.receipts call s.system.enqueued.length).filterMap Receipt.peeked = [] := by
    cases next with
    | goto pc => rfl
    | ret reply =>
      cases call with
      | enqueueBytes _ | enqueueBulk _ => rfl
      | _ => cases hcall
  rw [List.append_nil]
  refine ⟨hi, hl, fun hpc => ?_, ?_, fun d hd => ?_⟩
  · rw [hmore]
    exact hmask.symm ▸ (h.peeking hpc).frame more
  · have hlogged := h.yielded.logged
    rw [SpmcSystem.producerGoes, List.filterMap_append, hpeeked, List.append_nil]
    exact hlogged
  · obtain ⟨hend, hbytes⟩ := h.yielded.bytes d hd
    rw [hmore, slice_append_of_le hend, List.length_append]
    exact ⟨hend.trans (Nat.le_add_right _ _), hbytes⟩

/-- **A move of consumer `i`** that yields `new`. -/
theorem Kept.consumer_goes (h : Kept k s) {next : Next SpmcConsumerPc Reply} {loaded : ι → ℕ}
    {new : List Delivery} (hdata : call.data = []) (hmask : q.mask = s.system.queue.mask)
    (hi : (s.system.consumerGoes i call q p next).Indexed k)
    (hl : (s.system.consumerGoes i call q p next).Latest k)
    (hothers : ∀ j, j ≠ i → loaded j = s.loaded j)
    (hat : ∀ pc, next = .goto pc →
      pc.PeekAt k s.system.queue.mask s.system.enqueued (loaded i) call)
    (hlog : (next.receipts call (s.system.positions.ticket i)).filterMap Receipt.peeked
      = new.map fun d => (d.size, d.bytes))
    (hnew : ∀ d ∈ new, d.ticket + d.size ≤ s.system.enqueued.length
      ∧ d.bytes = slice s.system.enqueued d.ticket d.size) :
    Kept k ⟨s.system.consumerGoes i call q p next, loaded, s.yielded ++ new⟩ := by
  have henq : (s.system.consumerGoes i call q p next).enqueued = s.system.enqueued :=
    SpmcSystem.enqueued_consumerGoes hdata next
  refine ⟨hi, hl, ?_, ?_, ?_⟩
  · intro j call' pc' hpc'
    rw [henq]
    dsimp only [SpmcSystem.consumerGoes] at hpc' ⊢
    rw [hmask]
    by_cases hj : j = i
    · subst hj
      rw [Function.update_self] at hpc'
      cases next with
      | goto pc =>
        obtain ⟨rfl, rfl⟩ := Prod.mk.inj (Option.some.inj hpc')
        exact hat _ rfl
      | ret reply => cases hpc'
    · rw [Function.update_of_ne hj] at hpc'
      rw [hothers j hj]
      exact h.peeking hpc'
  · rw [SpmcSystem.consumerGoes, List.filterMap_append, hlog, h.yielded.logged, List.map_append]
  · intro d hd
    rw [henq]
    rcases List.mem_append.mp hd with hd | hd
    · exact h.yielded.bytes d hd
    · exact hnew d hd

end Moves

/-! ## Steps -/

section Steps

variable {s s' : SpmcPeeks ι} {i : ι} {call : Call} {k : ℕ} {a : SpmcAction ι}

theorem peeked_of_isDequeue (h : call.IsDequeue) (reply : Reply) (ticket : ℕ) :
    Receipt.peeked ⟨call, reply, ticket⟩ = none := by
  cases call with
  | dequeueBytes _ | dequeueBulk _ => rfl
  | _ => cases h

/-- A step of a consumer inside a dequeue yields nothing. -/
theorem Kept.dequeues (h : Kept k s) {next : Next SpmcConsumerPc Reply} {q : SpmcQueue}
    {p : Positions ι} (hcall : call.IsDequeue) (hholds : ∀ pc, next = .goto pc → pc.Holds)
    (hi : (s.system.consumerGoes i call q p next).Indexed k)
    (hl : (s.system.consumerGoes i call q p next).Latest k) :
    Kept k ⟨s.system.consumerGoes i call q p next, s.loaded, s.yielded ++ []⟩ := by
  refine h.consumer_goes (data_nil_of_isDequeue hcall) (hl.mask_eq.trans h.latest.mask_eq.symm)
    hi hl (fun _ _ => rfl) ?_ ?_ (by simp)
  · intro pc hpc
    have hpcs := hholds pc hpc
    cases pc with
    | loadTail _ _ | rewind _ _ | copy _ _ _ _ => trivial
    | claim _ | peekLoadCommit _ | peekLoadTail _ _ | peekCopy _ _ => cases hpcs
  · cases next with
    | goto pc => rfl
    | ret reply => simp [Next.receipts, peeked_of_isDequeue hcall]

/-- **A consumer's steps keep the invariant.** -/
theorem Kept.stepConsumer (h : Kept k s) {pc : SpmcConsumerPc}
    (hpc : s.system.consumers i = some (call, pc)) (huntouched : s.Untouched (.stepConsumer i))
    (hi : (s.system.consumerGoes i call (s.system.queue.stepConsumer pc).1
      (s.system.positions.after i s.system.queue pc) (s.system.queue.stepConsumer pc).2).Indexed k)
    (hl : (s.system.consumerGoes i call (s.system.queue.stepConsumer pc).1
      (s.system.positions.after i s.system.queue pc) (s.system.queue.stepConsumer pc).2).Latest k) :
    Kept k ⟨s.system.consumerGoes i call (s.system.queue.stepConsumer pc).1
      (s.system.positions.after i s.system.queue pc) (s.system.queue.stepConsumer pc).2,
      s.loads (.stepConsumer i), s.yielded ++ s.yields (.stepConsumer i)⟩ := by
  have hasks := h.indexed.consumer hpc
  have hat := h.peeking hpc
  have hmask := hl.mask_eq.trans h.latest.mask_eq.symm
  cases pc with
  | claim r =>
    simp only [loads, yields, hpc]
    refine h.dequeues hasks.1 ?_ hi hl
    rintro pc ⟨⟩
    trivial
  | loadTail r ticket =>
    simp only [loads, yields, hpc]
    refine h.dequeues hasks.1 ?_ hi hl
    rw [SpmcQueue.stepConsumer]
    split_ifs <;> (rintro pc ⟨⟩; trivial)
  | rewind r ticket =>
    simp only [loads, yields, hpc]
    refine h.dequeues hasks.1 ?_ hi hl
    rintro pc ⟨⟩
  | copy r ticket segs out =>
    simp only [loads, yields, hpc]
    refine h.dequeues hasks.1 ?_ hi hl
    cases segs with
    | nil =>
      rw [SpmcQueue.stepConsumer]
      split_ifs <;> rintro pc ⟨⟩
      trivial
    | cons seg segs =>
      rintro pc ⟨⟩
      trivial
  | peekLoadCommit n =>
    simp only [loads, yields, hpc]
    refine h.consumer_goes hasks.data_nil hmask hi hl (fun j hj => Function.update_of_ne hj _ _) ?_
      rfl (by simp)
    rintro pc ⟨⟩
    exact ⟨hat, by rw [Function.update_self, h.indexed.commit_eq]⟩
  | peekLoadTail n commit =>
    obtain ⟨rfl, rfl⟩ := hat
    simp only [loads, yields, hpc]
    refine h.consumer_goes rfl hmask hi hl (fun _ _ => rfl) ?_ ?_ (by simp)
    · rw [SpmcQueue.stepConsumer]
      split_ifs <;> rintro pc ⟨⟩
      exact ⟨n, rfl, .inl ⟨rfl, rfl⟩⟩
    · rw [SpmcQueue.stepConsumer]
      split_ifs <;> rfl
  | peekCopy segs out =>
    cases segs with
    | nil =>
      simp only [loads, yields, hpc]
      refine h.consumer_goes hasks.data_nil hmask hi hl (fun _ _ => rfl) ?_ ?_ ?_
      · rintro pc ⟨⟩
      · obtain ⟨m, rfl⟩ := hasks
        rfl
      · intro d hd
        obtain rfl := List.mem_singleton.mp hd
        exact hat.done
    | cons seg segs =>
      simp only [loads, yields, hpc]
      refine h.consumer_goes hasks.data_nil hmask hi hl (fun _ _ => rfl) ?_ rfl (by simp)
      rintro pc ⟨⟩
      exact hat.copies h.indexed h.latest (huntouched _ hpc)

/-- A call of a consumer begins with the invariant. -/
theorem Kept.beginConsumer (h : Kept k s) {next : Next SpmcConsumerPc Reply}
    (hbegin : s.system.queue.beginConsumer call = some next) (hv : call.Valid)
    (hi : (s.system.consumerGoes i call s.system.queue s.system.positions next).Indexed k)
    (hl : (s.system.consumerGoes i call s.system.queue s.system.positions next).Latest k) :
    Kept k ⟨s.system.consumerGoes i call s.system.queue s.system.positions next, s.loaded,
      s.yielded ++ []⟩ := by
  have hdata := data_nil_of_beginConsumer hbegin
  have hdequeue (hmap : (checkDequeue s.system.queue.buffer.isSome call).map
      (Next.ofCheck SpmcConsumerPc.claim) = some next) :
      Kept k ⟨s.system.consumerGoes i call s.system.queue s.system.positions next, s.loaded,
        s.yielded ++ []⟩ := by
    obtain ⟨x, hx, rfl⟩ := Option.map_eq_some_iff.mp hmap
    rw [h.indexed.allocated] at hx
    have hcall := (checkDequeue_spec hx hv).1
    refine h.consumer_goes hdata rfl hi hl (fun _ _ => rfl) ?_ ?_ (by simp)
    · cases x with
      | error status => rintro pc ⟨⟩
      | ok r =>
        rintro pc ⟨⟩
        trivial
    · cases x with
      | error status => simp [Next.ofCheck, Next.receipts, peeked_of_isDequeue hcall]
      | ok r => rfl
  cases call with
  | peekBytes n =>
    obtain rfl := Option.some.inj hbegin
    rw [h.indexed.allocated, if_neg (by decide)] at hi hl ⊢
    by_cases hn : n = 0#64
    · rw [if_pos hn] at hi hl ⊢
      refine h.consumer_goes rfl rfl hi hl (fun _ _ => rfl) ?_ rfl (by simp)
      rintro pc ⟨⟩
    · rw [if_neg hn] at hi hl ⊢
      refine h.consumer_goes rfl rfl hi hl (fun _ _ => rfl) ?_ rfl (by simp)
      rintro pc ⟨⟩
      rfl
  | _ => exact hdequeue hbegin

/-- **Every step whose copy finds its bytes untouched keeps the invariant.** -/
theorem Kept.step (h : Kept k s) (hv : a.Valid) (hadmits : s.system.AdmitsCapacity a)
    (huntouched : s.Untouched a) (hstep : step s a = some s') : Kept k s' := by
  obtain ⟨t, ht, rfl⟩ := Option.map_eq_some_iff.mp hstep
  have hi := h.indexed.step hv ht
  have hl := h.latest.step h.indexed hadmits ht
  cases SpmcSystem.stepped_of_step ht with
  | produce _ hbegin =>
    obtain ⟨x, hx, rfl⟩ := Option.map_eq_some_iff.mp hbegin
    rw [h.indexed.allocated] at hx
    exact h.producer_goes (checkEnqueue_spec hx hv).1 rfl hi hl
  | consume _ hbegin => exact h.beginConsumer hbegin hv hi hl
  | stepProducer hpc =>
    exact h.producer_goes (h.indexed.producer hpc).isEnqueue
      (hl.mask_eq.trans h.latest.mask_eq.symm) hi hl
  | stepConsumer hpc => exact h.stepConsumer hpc huntouched hi hl

end Steps

/-! ## Runs -/

section Runs

variable {s : SpmcPeeks ι}

/-- **A peek yields the stream from the commit index it loaded**, in every run in which its copies
find their bytes untouched and no enqueue longer than the queue is admitted. -/
theorem yields_stream {mem : Allocator} {n : Size} {q : SpmcQueue}
    (hq : SpmcQueue.reserve mem n = some q) (hbuf : q.buffer.isSome)
    (hrun : Reaches step (fun s a => a.Valid ∧ s.system.AdmitsCapacity a ∧ s.Untouched a)
      (init q) s) : s.YieldsStream := by
  obtain ⟨k, _, _, hi, hkeep⟩ := SpmcQueue.settled_of_reserve hq hbuf
  have hempty : (init q : SpmcPeeks ι).system.written = [] := rfl
  have hinit : Kept k (init q : SpmcPeeks ι) :=
    { indexed := SpmcSystem.indexed_init hi hbuf
      latest :=
        { mask_eq := hi.mask_eq
          keep := by
            rw [hempty, List.length_nil, Nat.zero_sub]
            exact hkeep
          laid := by simp [init, SpmcSystem.init] }
      peeking := by simp [init, SpmcSystem.init]
      yielded := ⟨rfl, by simp [init]⟩ }
  have h : Kept k s := hrun.invariant hinit fun h hguard hstep =>
    h.step hguard.1 hguard.2.1 hguard.2.2 hstep
  exact h.yielded

/-- A peek of eight bytes is admitted; then four of them are dequeued and the producer enqueues four
more where they were.  The peek returns `kOk` with four bytes of each turn. -/
theorem yields_overwritten : ∃ q s, SpmcQueue.reserve .zeroed 8#64 = some q
    ∧ execute step (fun s a => decide (a.Valid ∧ s.system.AdmitsCapacity a))
        (init q : SpmcPeeks Bool)
        [.produce (.enqueueBytes [1, 2, 3, 4, 5, 6, 7, 8]),
          .stepProducer, .stepProducer, .stepProducer, .stepProducer,
          .consume true (.peekBytes 8#64), .stepConsumer true, .stepConsumer true,
          .consume false (.dequeueBytes 4#64), .stepConsumer false, .stepConsumer false,
          .stepConsumer false, .stepConsumer false,
          .produce (.enqueueBytes [9, 10, 11, 12]),
          .stepProducer, .stepProducer, .stepProducer, .stepProducer,
          .stepConsumer true, .stepConsumer true] = some s
    ∧ s.yielded = [⟨0, 8, [9, 10, 11, 12, 5, 6, 7, 8]⟩]
    ∧ ¬ s.YieldsStream := by
  obtain ⟨s, hs, hout⟩ : ∃ s, execute step (fun s a => decide (a.Valid ∧ s.system.AdmitsCapacity a))
      (init { buffer := some (List.replicate 72 0), capacity := 8#64, mask := 7#64 } :
        SpmcPeeks Bool)
      [.produce (.enqueueBytes [1, 2, 3, 4, 5, 6, 7, 8]),
        .stepProducer, .stepProducer, .stepProducer, .stepProducer,
        .consume true (.peekBytes 8#64), .stepConsumer true, .stepConsumer true,
        .consume false (.dequeueBytes 4#64), .stepConsumer false, .stepConsumer false,
        .stepConsumer false, .stepConsumer false,
        .produce (.enqueueBytes [9, 10, 11, 12]),
        .stepProducer, .stepProducer, .stepProducer, .stepProducer,
        .stepConsumer true, .stepConsumer true] = some s
      ∧ (s.yielded, s.system.enqueued)
        = ([⟨0, 8, [9, 10, 11, 12, 5, 6, 7, 8]⟩], [1, 2, 3, 4, 5, 6, 7, 8, 9, 10, 11, 12]) :=
    Option.map_eq_some_iff.mp rfl
  obtain ⟨hyielded, henq⟩ := Prod.mk.inj hout
  refine ⟨_, s, rfl, hs, hyielded, fun h => ?_⟩
  have hbytes := (h.bytes ⟨0, 8, [9, 10, 11, 12, 5, 6, 7, 8]⟩ (by rw [hyielded]; simp)).2
  rw [henq] at hbytes
  exact absurd hbytes (by decide)

/-- The same peek, copied after the dequeue and before the producer enqueues again. -/
theorem yields_stream_eight : ∃ q s, SpmcQueue.reserve .zeroed 8#64 = some q
    ∧ execute step (fun s a => decide (a.Valid ∧ s.system.AdmitsCapacity a ∧ s.Untouched a))
        (init q : SpmcPeeks Bool)
        [.produce (.enqueueBytes [1, 2, 3, 4, 5, 6, 7, 8]),
          .stepProducer, .stepProducer, .stepProducer, .stepProducer,
          .consume true (.peekBytes 8#64), .stepConsumer true, .stepConsumer true,
          .consume false (.dequeueBytes 4#64), .stepConsumer false, .stepConsumer false,
          .stepConsumer false, .stepConsumer false,
          .stepConsumer true,
          .produce (.enqueueBytes [9, 10, 11, 12]),
          .stepProducer, .stepProducer, .stepProducer, .stepProducer,
          .stepConsumer true] = some s
    ∧ s.yielded = [⟨0, 8, [1, 2, 3, 4, 5, 6, 7, 8]⟩]
    ∧ s.YieldsStream := by
  obtain ⟨s, hs, hyielded⟩ : ∃ s,
      execute step (fun s a => decide (a.Valid ∧ s.system.AdmitsCapacity a ∧ s.Untouched a))
      (init { buffer := some (List.replicate 72 0), capacity := 8#64, mask := 7#64 } :
        SpmcPeeks Bool)
      [.produce (.enqueueBytes [1, 2, 3, 4, 5, 6, 7, 8]),
        .stepProducer, .stepProducer, .stepProducer, .stepProducer,
        .consume true (.peekBytes 8#64), .stepConsumer true, .stepConsumer true,
        .consume false (.dequeueBytes 4#64), .stepConsumer false, .stepConsumer false,
        .stepConsumer false, .stepConsumer false,
        .stepConsumer true,
        .produce (.enqueueBytes [9, 10, 11, 12]),
        .stepProducer, .stepProducer, .stepProducer, .stepProducer,
        .stepConsumer true] = some s
      ∧ s.yielded = [⟨0, 8, [1, 2, 3, 4, 5, 6, 7, 8]⟩] :=
    Option.map_eq_some_iff.mp rfl
  have hq : SpmcQueue.reserve .zeroed 8#64
      = some { buffer := some (List.replicate 72 0), capacity := 8#64, mask := 7#64 } := rfl
  exact ⟨_, s, hq, hs, hyielded, yields_stream hq rfl (Reaches.of_execute of_decide_eq_true hs)⟩

end Runs

end SpmcPeeks

end Femtolog
