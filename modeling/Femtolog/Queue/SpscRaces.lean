import Femtolog.Queue.SpscOrder

/-!
# Queue/SpscRaces — when the copies of `SpscQueue` race

Whatever stores the loads return, the calls that succeed answer as a bounded FIFO stream, and the
copies of enqueues and dequeues never race: each refreshes its snapshot by an acquire load before it
goes beyond it.  A peek does not.  The run stays free of races as long as the peeks copy what the
consumer's thread has acquired, by an earlier dequeue or by the flag, and no longer
(`WeakSystem.races_iff`).  Once the consumer has seen the flag, an underflow is no longer due to an
old store, whether its peeks race or not (`WeakSystem.underflow_after_flag`).
-/

namespace Femtolog

/-- If the consumer is about to copy for a peek that found its bytes from position `p` on, each byte
of this copy is below `reach`. -/
def ConsumerPc.CopiesBelow (p reach : ℕ) : ConsumerPc → Prop
  | .peekCopy ((_, len) :: _) out => ∀ j < len, p + out.length + j < reach
  | _ => True

instance (p reach : ℕ) : DecidablePred (ConsumerPc.CopiesBelow p reach)
  | .peekCopy ((_, len) :: _) out =>
    inferInstanceAs (Decidable (∀ j < len, p + out.length + j < reach))
  | .peekCopy [] _ | .loadHead _ | .loadTail _ _ | .copy _ _ _ _ => inferInstanceAs (Decidable True)
  | .peekLoadHead _ | .peekLoadTail _ _ => inferInstanceAs (Decidable True)

namespace WeakSystem

open SpscSystem (Sound)

/-! ## The invariant -/

/-- **The invariant**: the queue is sound, and the accesses so far lie where the stream says.  It
does not say that they do not race. -/
structure Inv (k : ℕ) (stream : List Byte) (H : ℕ) (s : WeakSystem) : Prop where
  sound : Sound k stream H s.base
  handed : HandedBack k stream.length H s.base.queue.headCachedSnapshot s
  published : Published k stream.length H (stream.length + s.base.inFlight)
    s.base.queue.tailCachedSnapshot s

namespace Inv

variable {s : WeakSystem} {b : SpscSystem} {k H : ℕ} {stream : List Byte}

/-- A step that accesses nothing the other thread can see. -/
theorem quiet (h : Inv k stream H s) (hb : Sound k stream H b)
    (hflight : b.inFlight = s.base.inFlight)
    (hhead : b.queue.headCachedSnapshot = s.base.queue.headCachedSnapshot)
    (htail : b.queue.tailCachedSnapshot = s.base.queue.tailCachedSnapshot) :
    Inv k stream H { s with base := b } where
  sound := hb
  handed := hhead ▸ { h.handed with }
  published := htail ▸ hflight ▸ { h.published with }

/-- The producer never writes a turn ahead of the head. -/
theorem inFlight_le (h : Inv k stream H s) : stream.length + s.base.inFlight ≤ H + 2 ^ k := by
  have hat := h.sound.producer
  have hle := h.sound.indexed.tail_le
  rw [SpscSystem.inFlight]
  cases hpc : s.base.producer with
  | idle => exact hle
  | inside call pc touched =>
    rw [hpc] at hat
    cases hat with
    | loadTail | loadHead => exact hle
    | copy hcall hr hdata hroom hcov hkeep =>
      obtain ⟨p, hp, hT, -⟩ := hroom
      dsimp only
      omega

/-! ## Accesses -/

/-- A copy of the producer. -/
theorem producer_copies (h : Inv k stream H s) {off len : ℕ}
    (hat : off = (stream.length + s.base.inFlight) % 2 ^ k
      ∧ (stream.length + s.base.inFlight) % 2 ^ k + len ≤ 2 ^ k)
    (hb : Sound k stream H b) (hflight : b.inFlight = s.base.inFlight + len)
    (hhead : b.queue.headCachedSnapshot = s.base.queue.headCachedSnapshot)
    (htail : b.queue.tailCachedSnapshot = s.base.queue.tailCachedSnapshot) :
    Inv k stream H { s with timeline := s.timeline.access .producer true off len, base := b } := by
  refine ⟨hb, hhead ▸ h.handed.access_producer off len b, ?_⟩
  rw [htail, hflight, ← Nat.add_assoc]
  exact h.published.access_producer (Nat.le_add_right _ _) hat b

/-- **…to the positions its snapshot leaves room for** races with nothing. -/
theorem raceFree_producer (h : Inv k stream H s) (hfree : RaceFree s.timeline.log)
    {n off len : ℕ} (hroom : s.base.queue.HeadSnapshot k H (stream.length + n))
    (hat : off = (stream.length + s.base.inFlight) % 2 ^ k
      ∧ (stream.length + s.base.inFlight) % 2 ^ k + len ≤ 2 ^ k)
    (hle : s.base.inFlight + len ≤ n) :
    RaceFree (s.timeline.access .producer true off len).log := by
  have hi := h.sound.indexed
  obtain ⟨p, hp, hT, hsnap⟩ := hroom
  obtain ⟨i, m, -, hm, -, hclock, hturn⟩ := h.handed.acquired_of_eq hi.k_lt hi.head_le hp (by omega)
    (le_refl p) hsnap
  have hmem : m ∈ s.heads := List.mem_of_getElem? hm
  have hown : Access.At (2 ^ k) (stream.length + s.base.inFlight) ⟨.producer,
      s.timeline.clock .producer .producer, s.timeline.clock .producer, true, off, len⟩ := hat
  refine hfree.snoc fun a ha hne hmeets => ?_
  have hthread := Side.eq_consumer hne
  rw [hthread]
  exact h.handed.reads.before_ahead hmem hclock hown (Nat.le_add_right _ _)
    (by dsimp only; omega) ha hthread hmeets

/-- A copy of the consumer. -/
theorem consumer_copies (h : Inv k stream H s) {p off len : ℕ} (hlo : H ≤ p)
    (hat : off = p % 2 ^ k ∧ p % 2 ^ k + len ≤ 2 ^ k) (hle : p + len ≤ stream.length)
    (hb : Sound k stream H b) (hflight : b.inFlight = s.base.inFlight)
    (hhead : b.queue.headCachedSnapshot = s.base.queue.headCachedSnapshot)
    (htail : b.queue.tailCachedSnapshot = s.base.queue.tailCachedSnapshot) :
    Inv k stream H { s with timeline := s.timeline.access .consumer false off len, base := b } := by
  refine ⟨hb, hhead ▸ h.handed.access_consumer hlo hat hle b, ?_⟩
  rw [htail, hflight]
  exact h.published.access_consumer off len b

/-- **…of published bytes** races with nothing exactly if it stays below what its thread has
acquired. -/
theorem raceFree_consumer_iff (h : Inv k stream H s) (hfree : RaceFree s.timeline.log)
    {p off len : ℕ} (hat : off = p % 2 ^ k ∧ p % 2 ^ k + len ≤ 2 ^ k)
    (hlo : H ≤ p) (hle : p + len ≤ stream.length) :
    RaceFree (s.timeline.access .consumer false off len).log ↔ ∀ j < len, p + j < s.reach := by
  obtain ⟨m, hmem, hclock, hreach⟩ := h.published.reached
  have hown : Access.At (2 ^ k) p ⟨.consumer, s.timeline.clock .consumer .consumer,
      s.timeline.clock .consumer, false, off, len⟩ := hat
  rw [hreach]
  constructor
  · intro hfree' j hj
    by_contra hbeyond
    have hne : Side.producer ≠ Side.consumer := nofun
    obtain ⟨a, ha, hraces⟩ := h.published.written.races hmem hne hclock hown (Nat.le_add_right p j)
      (Nat.add_lt_add_left hj p) (by omega) (by omega)
    exact (raceFree_snoc.mp hfree').2 a ha hraces
  · intro hbelow
    refine hfree.snoc fun a ha hne hmeets => ?_
    have hthread := Side.eq_producer hne
    have hpos : 0 < len := by
      obtain ⟨x, -, hx⟩ := Access.meets_iff.mp hmeets
      dsimp only at hx
      omega
    have hend := hbelow (len - 1) (by omega)
    have hturn := h.inFlight_le
    rw [hthread]
    exact h.published.writes.before_behind hmem hclock.ge hown (by omega)
      (by dsimp only; omega) ha hthread hmeets

/-! ## Loads and stores -/

/-- **The producer refreshes its snapshot** by an acquire load. -/
theorem acquires_head (h : Inv k stream H s) {i : ℕ} {m : Stored Side Size}
    (hm : s.heads[i]? = some m) (hseen : s.headSeen ≤ i) (hb : Sound k stream H b)
    (hflight : b.inFlight = s.base.inFlight) (hhead : b.queue.headCachedSnapshot = m.value)
    (htail : b.queue.tailCachedSnapshot = s.base.queue.tailCachedSnapshot) :
    Inv k stream H { s with
      headSeen := i
      timeline := s.timeline.acquire .producer m.clock
      base := b } := by
  refine ⟨hb, hhead ▸ h.handed.acquire hm hseen b, ?_⟩
  rw [htail, hflight]
  exact h.published.acquire_producer m.clock i b

/-- **The consumer refreshes its snapshot** by an acquire load. -/
theorem acquires_tail (h : Inv k stream H s) {i : ℕ} {m : Stored Side Size}
    (hm : s.tails[i]? = some m) (hseen : s.tailSeen ≤ i) (hb : Sound k stream H b)
    (hflight : b.inFlight = s.base.inFlight)
    (hhead : b.queue.headCachedSnapshot = s.base.queue.headCachedSnapshot)
    (htail : b.queue.tailCachedSnapshot = m.value) :
    Inv k stream H { s with
      tailSeen := i
      reach := max s.reach m.position
      timeline := s.timeline.acquire .consumer m.clock
      base := b } := by
  obtain ⟨hvalue, hlo, -⟩ := h.published.loads hm hseen
  obtain ⟨f, last, hf, hlast⟩ := h.published.observed
  refine ⟨hb, hhead ▸ h.handed.acquire_consumer m.clock i s.flagSeen _ b, ?_⟩
  rw [hflight, htail]
  exact h.published.acquire (Published.mem_of_tail hm) ⟨f, last, hf, hlast.trans hseen⟩
    ⟨m.position, m, hvalue, hlo, le_max_right _ _, hm, le_refl _⟩ b

/-- A peek has loaded the tail, relaxed: it has acquired nothing. -/
theorem sees_tail (h : Inv k stream H s) {i : ℕ} {m : Stored Side Size}
    (hm : s.tails[i]? = some m) (hseen : s.tailSeen ≤ i) (hb : Sound k stream H b)
    (hflight : b.inFlight = s.base.inFlight)
    (hhead : b.queue.headCachedSnapshot = s.base.queue.headCachedSnapshot)
    (htail : b.queue.tailCachedSnapshot = s.base.queue.tailCachedSnapshot) :
    Inv k stream H { s with tailSeen := i, base := b } := by
  refine ⟨hb, hhead ▸ { h.handed with }, ?_⟩
  rw [hflight, htail]
  exact h.published.see hm hseen b

/-- **The producer publishes**: the release fence and the store of the tail. -/
theorem producer_releases (h : Inv k stream H s) {data : List Byte} {value : Size}
    (hroom : s.base.queue.HeadSnapshot k H (stream.length + data.length))
    (hvalue : value = BitVec.ofNat 64 (stream.length + data.length))
    (hcopied : s.base.inFlight = data.length) (hb : Sound k (stream ++ data) H b)
    (hflight : b.inFlight = 0)
    (hhead : b.queue.headCachedSnapshot = s.base.queue.headCachedSnapshot)
    (htail : b.queue.tailCachedSnapshot = s.base.queue.tailCachedSnapshot) :
    Inv k (stream ++ data) H { s with
      tails := s.tails ++ [⟨value, s.timeline.clock .producer, stream.length + data.length⟩]
      base := b } := by
  have hi := h.sound.indexed
  have hlen : (stream ++ data).length = stream.length + data.length := List.length_append
  obtain ⟨p, hp, hT, hsnap⟩ := hroom
  have hlow : stream.length + data.length - 2 ^ k ≤ p := by omega
  have hacquired := h.handed.acquired_of_eq hi.k_lt hi.head_le hp (by omega) hlow hsnap
  refine ⟨hb, ⟨h.handed.heads, ?_, ?_⟩, ?_⟩
  · rw [hlen, hhead]
    exact hacquired
  · rw [hlen]
    exact h.handed.reads.mono (Nat.le_add_right _ _)
  · rw [hlen, hflight, htail, Nat.add_zero]
    have hpublished := h.published
    rw [hcopied] at hpublished
    exact hpublished.release (Nat.le_add_right _ _) hvalue b

/-- **The consumer gives the cells back**: the release fence and the store of the head. -/
theorem consumer_releases (h : Inv k stream H s) {n : ℕ} {value : Size}
    (hdata : s.base.queue.TailSnapshot (H + n) stream.length)
    (hvalue : value = BitVec.ofNat 64 (H + n)) (hb : Sound k stream (H + n) b)
    (hflight : b.inFlight = s.base.inFlight)
    (hhead : b.queue.headCachedSnapshot = s.base.queue.headCachedSnapshot)
    (htail : b.queue.tailCachedSnapshot = s.base.queue.tailCachedSnapshot) :
    Inv k stream (H + n) { s with
      heads := s.heads ++ [⟨value, s.timeline.clock .consumer, H + n⟩]
      base := b } := by
  have hi := h.sound.indexed
  obtain ⟨p, hp, hpT, hsnap⟩ := hdata
  refine ⟨hb, hhead ▸ h.handed.release (Nat.le_add_right H n) hvalue b, ?_⟩
  rw [hflight, htail]
  exact h.published.advance hi.k_lt hi.tail_le hp (by omega) hpT hsnap _ b

/-- The producer's thread stores the flag. -/
theorem raise (h : Inv k stream H s) (hidle : s.base.producer = .idle) (value : Size) :
    Inv k stream H (s.raises value) := by
  have hnone : s.base.inFlight = 0 := by rw [SpscSystem.inFlight, hidle]
  have hpublished := h.published
  rw [hnone, Nat.add_zero] at hpublished
  refine ⟨h.sound, { h.handed with }, ?_⟩
  rw [raises, h.sound.enqueued_eq, hnone, Nat.add_zero]
  exact hpublished.raise value

/-- The consumer's thread loads the flag. -/
theorem observe (h : Inv k stream H s) {i last : ℕ} {m : Stored Side Size}
    (hm : s.flags[i]? = some (m, last)) : Inv k stream H (s.observes i m last) := by
  obtain ⟨p, m', hvalue, hp, hreach, hm', hle⟩ := h.published.shown
  obtain ⟨m'', hm'', -⟩ := h.published.flagged m last (List.mem_of_getElem? hm)
  have hmem : m ∈ s.releases :=
    List.mem_append_right _ (List.mem_map_of_mem (List.mem_of_getElem? hm))
  refine ⟨h.sound, h.handed.acquire_consumer m.clock _ _ _ s.base,
    h.published.acquire hmem ⟨m, last, hm, le_max_right _ _⟩
      ⟨p, ?_⟩ s.base⟩
  rcases Nat.le_total s.tailSeen last with hlast | hlast
  · rw [max_eq_right hlast]
    exact ⟨m'', hvalue, hp, hreach.trans (le_max_left _ _), hm'',
      hle.trans (h.published.tails.le_of_le hm' hm'' hlast).1⟩
  · rw [max_eq_left hlast]
    exact ⟨m', hvalue, hp, hreach.trans (le_max_left _ _), hm', hle⟩

end Inv

/-! ## Steps of the producer -/

section ProducerSteps

variable {q : SpscQueue} {v : Size} {r : EnqueueRequest}

/-- The load of its own tail, and the check against the snapshot. -/
theorem producerStep_loadTail : producerStep q v (.loadTail r)
    = if q.capacity - (q.tailIdx - q.headCachedSnapshot) < r.total then
        (q, .goto (.loadHead r q.tailIdx))
      else (q, .goto (.copy r q.tailIdx (bulkSegments q.mask q.tailIdx r.sizes) r.data)) := by
  rw [producerStep, SpscQueue.stepProducer]
  split_ifs <;> rfl

/-- The load of the head, and the check against it. -/
theorem producerStep_loadHead {tail : Size} : producerStep q v (.loadHead r tail)
    = if q.capacity - (tail - v) < r.total then
        ({ q with headCachedSnapshot := v }, .ret (.status .kOverflow []))
      else ({ q with headCachedSnapshot := v },
        .goto (.copy r tail (bulkSegments q.mask tail r.sizes) r.data)) := by
  rw [producerStep, SpscQueue.stepProducer]
  split_ifs <;> rfl

variable {s : WeakSystem} {k H i : ℕ} {stream : List Byte} {m : Stored Side Size} {call : Call}
  {touched : Bool}

/-- **The producer's steps keep the invariant**, whatever store its load returns. -/
theorem Inv.stepProducer (h : Inv k stream H s) {pc : ProducerPc}
    (hpc : s.base.producer = .inside call pc touched) (hm : s.heads[i]? = some m)
    (hseen : s.headSeen ≤ i) : ∃ stream', Inv k stream' H (s.producerGoes i m call pc touched) := by
  have hi := h.sound.indexed
  have hle := hi.head_le
  have hat := h.sound.producer
  rw [hpc] at hat
  cases hat with
  | @loadTail call r hcall hr hkeep =>
    have hstart : s.base.inFlight = 0 := by rw [SpscSystem.inFlight, hpc]
    refine ⟨stream, ?_⟩
    rw [producerGoes, producerStep_loadTail]
    by_cases hsnap : s.base.queue.capacity
        - (s.base.queue.tailIdx - s.base.queue.headCachedSnapshot) < r.total
    · rw [if_pos hsnap, SpscQueue.touchedBy_self]
      exact h.quiet (h.sound.producer_goto hi rfl rfl (.loadHead hcall hr hkeep)) hstart.symm rfl
        rfl
    · rw [if_neg hsnap, SpscQueue.touchedBy_self]
      rw [hr.total_eq] at hsnap
      exact h.quiet (h.sound.producer_goto hi rfl rfl (SpscSystem.producerAt_copy hi hcall hr hkeep
        (hi.room_of_snapshot hr.lt hsnap))) ((SpscSystem.inFlight_start hr _ _ _).trans hstart.symm)
        rfl rfl
  | @loadHead call r hcall hr hkeep =>
    have hstart : s.base.inFlight = 0 := by rw [SpscSystem.inFlight, hpc]
    obtain ⟨hvalue, hback, hroom⟩ := h.handed.loads hm hseen
    have hi' : SpscQueue.Indexed { s.base.queue with headCachedSnapshot := m.value } k H
        stream.length := { hi with headSnapshot := ⟨m.position, hback, hroom, hvalue⟩ }
    refine ⟨stream, ?_⟩
    rw [producerGoes, producerStep_loadHead]
    by_cases hover : s.base.queue.capacity - (s.base.queue.tailIdx - m.value) < r.total
    · rw [if_pos hover, SpscQueue.touchedBy_headCachedSnapshot]
      exact h.acquires_head hm hseen (h.sound.producer_fails (by decide) hi' rfl rfl hkeep)
        hstart.symm rfl rfl
    · rw [if_neg hover, SpscQueue.touchedBy_headCachedSnapshot]
      rw [hr.total_eq] at hover
      exact h.acquires_head hm hseen (h.sound.producer_goto hi' rfl rfl
        (SpscSystem.producerAt_copy hi' hcall hr hkeep (hi'.room_of_snapshot hr.lt hover)))
        ((SpscSystem.inFlight_start hr _ _ _).trans hstart.symm) rfl rfl
  | @copy call r segs done rest touched hcall hr hdata hroom hcov hkeep =>
    have hsum : call.data.length = done.length + rest.length := by
      rw [hdata, List.length_append]
    have hflight : s.base.inFlight = done.length := SpscSystem.inFlight_eq_length hpc hdata
    cases segs with
    | nil =>
      obtain rfl : rest = [] := List.eq_nil_of_length_eq_zero hcov.eq_zero_of_nil
      obtain rfl : call.data = done := by rw [hdata, List.append_nil]
      have hstored : s.base.enqueued.length + r.total.toNat = stream.length + call.data.length := by
        rw [h.sound.enqueued_eq, hr.total_eq, toNat_ofNat_of_lt hr.lt]
      refine ⟨stream ++ call.data, ?_⟩
      rw [producerGoes, producerOrders, hstored]
      refine h.producer_releases hroom ?_ hflight (h.sound.producer_stores hcall hr hroom hkeep) rfl
        rfl rfl
      rw [hi.tail_eq, hr.total_eq, BitVec.ofNat_add]
    | cons seg segs =>
      obtain ⟨off, len⟩ := seg
      obtain ⟨p, hp, hT, -⟩ := id hroom
      obtain ⟨hoff, hseg, n, hn, -⟩ := hcov.of_cons
      obtain ⟨hkeep', hcov', -⟩ := hkeep.copyIn hcov (by rw [List.length_append]; omega)
      rw [List.append_assoc] at hkeep' hcov'
      rw [List.length_append, ← hflight] at hoff hseg
      refine ⟨stream, h.producer_copies ⟨hoff, hseg⟩ (h.sound.producer_goto { hi with } rfl rfl ?_)
        ?_ rfl rfl⟩
      · refine .copy hcall hr ?_ hroom hcov' hkeep'
        rw [List.append_assoc, List.take_append_drop, hdata]
      · rw [SpscSystem.inFlight_of_copy rfl, List.length_drop]
        omega

/-- **No step of the producer races.** -/
theorem Inv.raceFree_stepProducer (h : Inv k stream H s) (hfree : RaceFree s.timeline.log)
    {pc : ProducerPc} (hpc : s.base.producer = .inside call pc touched) (i : ℕ)
    (m : Stored Side Size) : RaceFree (s.producerOrders i m pc).timeline.log := by
  have hat := h.sound.producer
  rw [hpc] at hat
  cases hat with
  | loadTail | loadHead => exact hfree
  | @copy call r segs done rest touched hcall hr hdata hroom hcov hkeep =>
    cases segs with
    | nil => exact hfree
    | cons seg segs =>
      obtain ⟨off, len⟩ := seg
      have hflight : s.base.inFlight = done.length := SpscSystem.inFlight_eq_length hpc hdata
      have hsum : call.data.length = done.length + rest.length := by
        rw [hdata, List.length_append]
      obtain ⟨hoff, hseg, n, hn, -⟩ := hcov.of_cons
      rw [List.length_append, ← hflight] at hoff hseg
      exact h.raceFree_producer hfree hroom ⟨hoff, hseg⟩ (by omega)

end ProducerSteps

/-! ## Steps of the consumer -/

section ConsumerSteps

variable {q : SpscQueue} {v : Size}

/-- The load of its own head, and the check against the snapshot. -/
theorem consumerStep_loadHead {r : DequeueRequest} : consumerStep q v (.loadHead r)
    = if q.tailCachedSnapshot - q.headIdx < r.total then (q, .goto (.loadTail r q.headIdx))
      else (q, .goto (.copy r q.headIdx (bulkSegments q.mask q.headIdx r.sizes) [])) := by
  rw [consumerStep, SpscQueue.stepConsumer]
  split_ifs <;> rfl

/-- The load of the tail, and the check against it. -/
theorem consumerStep_loadTail {r : DequeueRequest} {head : Size} :
    consumerStep q v (.loadTail r head)
      = if v - head < r.total then
          ({ q with tailCachedSnapshot := v }, .ret (.status .kUnderflow []))
        else ({ q with tailCachedSnapshot := v },
          .goto (.copy r head (bulkSegments q.mask head r.sizes) [])) := by
  rw [consumerStep, SpscQueue.stepConsumer]
  split_ifs <;> rfl

/-- The load of the tail by a peek, and its check. -/
theorem consumerStep_peekLoadTail {n head : Size} : consumerStep q v (.peekLoadTail n head)
    = if n > v - head then (q, .ret (.status .kUnderflow []))
      else (q, .goto (.peekCopy (segments q.mask head n) [])) := by
  rw [consumerStep, SpscQueue.stepConsumer]
  split_ifs <;> rfl

variable {s : WeakSystem} {k H i : ℕ} {stream : List Byte} {m : Stored Side Size} {call : Call}
  {touched : Bool}

/-- A peek that found its bytes below the tail it loaded. -/
theorem Inv.data_of_loads (h : Inv k stream H s) {n : Size} (hm : s.tails[i]? = some m)
    (hseen : s.tailSeen ≤ i) (hfound : ¬ n > m.value - s.base.queue.headIdx) :
    H + n.toNat ≤ stream.length := by
  obtain ⟨hvalue, hlo, hhi⟩ := h.published.loads hm hseen
  have hk : 2 ^ k < 2 ^ 64 := Nat.pow_lt_pow_right (by norm_num) h.sound.indexed.k_lt
  have hT := h.sound.indexed.tail_le
  have hle : n.toNat ≤ (m.value - s.base.queue.headIdx).toNat :=
    BitVec.le_def.mp (BitVec.not_lt.mp hfound)
  rw [hvalue, h.sound.indexed.head_eq, toNat_ofNat_sub_ofNat hlo (by omega)] at hle
  omega

/-- **The consumer's steps keep the invariant**, whatever store its load returns. -/
theorem Inv.stepConsumer (h : Inv k stream H s) {pc : ConsumerPc}
    (hpc : s.base.consumer = .inside call pc touched) (hm : s.tails[i]? = some m)
    (hseen : s.tailSeen ≤ i) : ∃ H', Inv k stream H' (s.consumerGoes i m call pc touched) := by
  have hi := h.sound.indexed
  have hle := hi.head_le
  have hocc : (stream.drop H).length = stream.length - H := List.length_drop
  have hk : 2 ^ k < 2 ^ 64 := Nat.pow_lt_pow_right (by norm_num) hi.k_lt
  have hT := hi.tail_le
  obtain ⟨done, hkeep⟩ := h.sound.producer.keeps
  have hat := h.sound.consumer
  rw [hpc] at hat
  cases hat with
  | @loadHead call r hcall hr =>
    refine ⟨H, ?_⟩
    rw [consumerGoes, consumerStep_loadHead]
    by_cases hsnap : s.base.queue.tailCachedSnapshot - s.base.queue.headIdx < r.total
    · rw [if_pos hsnap, SpscQueue.touchedBy_self]
      exact h.quiet (h.sound.consumer_goto hi rfl rfl rfl (.loadTail hcall hr)) rfl rfl rfl
    · rw [if_neg hsnap, SpscQueue.touchedBy_self]
      rw [hr.total_eq] at hsnap
      exact h.quiet (h.sound.consumer_goto hi rfl rfl rfl (SpscSystem.consumerAt_copy hi hcall hr
        (hi.data_of_snapshot hr.lt hsnap))) rfl rfl rfl
  | @loadTail call r hcall hr =>
    obtain ⟨hvalue, hlo, hhi⟩ := h.published.loads hm hseen
    have hi' : SpscQueue.Indexed { s.base.queue with tailCachedSnapshot := m.value } k H
        stream.length := { hi with tailSnapshot := ⟨m.position, hlo, hhi, hvalue⟩ }
    refine ⟨H, ?_⟩
    rw [consumerGoes, consumerStep_loadTail]
    by_cases hunder : m.value - s.base.queue.headIdx < r.total
    · rw [if_pos hunder, SpscQueue.touchedBy_tailCachedSnapshot]
      exact h.acquires_tail hm hseen (h.sound.consumer_fails (by decide) hi' rfl rfl rfl) rfl rfl
        rfl
    · rw [if_neg hunder, SpscQueue.touchedBy_tailCachedSnapshot]
      rw [hr.total_eq] at hunder
      exact h.acquires_tail hm hseen (h.sound.consumer_goto hi' rfl rfl rfl
        (SpscSystem.consumerAt_copy hi' hcall hr (hi'.data_of_snapshot hr.lt hunder))) rfl rfl rfl
  | @copy call r segs out hcall hr hdata hread =>
    obtain ⟨p, hp, hpT, -⟩ := id hdata
    cases segs with
    | nil =>
      obtain rfl : out = (stream.drop H).take call.asked := hread.done
      have hstored : s.base.dequeued.length + r.total.toNat = H + call.asked := by
        rw [h.sound.dequeued_length, hr.toNat_total]
      refine ⟨H + call.asked, ?_⟩
      rw [consumerGoes, consumerOrders, hstored]
      refine h.consumer_releases hdata ?_ (h.sound.consumer_stores hcall hr hdata) rfl rfl rfl
      rw [hi.head_eq, hr.total_eq, BitVec.ofNat_add]
    | cons seg segs =>
      obtain ⟨off, len⟩ := seg
      obtain ⟨hoff, hseg, n, hn, -⟩ := hread.covers.of_cons
      have hlen := hread.length_le
      have hstep : consumerStep s.base.queue m.value (.copy r s.base.queue.headIdx
          ((off, len) :: segs) out) = (s.base.queue, .goto (.copy r s.base.queue.headIdx segs
            (out ++ copyOut s.base.queue.buffer off len))) := rfl
      rw [consumerGoes, hstep, SpscQueue.touchedBy_self]
      exact ⟨H, h.consumer_copies (Nat.le_add_right H out.length) ⟨hoff, hseg⟩ (by omega)
        (h.sound.consumer_goto hi rfl rfl rfl
          (.copy hcall hr hdata (hkeep.copyOut hread (Nat.le_add_right H _) (by omega)))) rfl rfl
        rfl⟩
  | @peekLoadHead n hn =>
    refine ⟨H, ?_⟩
    have hstep : consumerStep s.base.queue m.value (.peekLoadHead n)
        = (s.base.queue, .goto (.peekLoadTail n s.base.queue.headIdx)) := rfl
    rw [consumerGoes, hstep, SpscQueue.touchedBy_self]
    exact h.quiet (h.sound.consumer_goto hi rfl rfl rfl (.peekLoadTail hn)) rfl rfl rfl
  | @peekLoadTail n hn =>
    refine ⟨H, ?_⟩
    rw [consumerGoes, consumerStep_peekLoadTail]
    by_cases hunder : n > m.value - s.base.queue.headIdx
    · rw [if_pos hunder, SpscQueue.touchedBy_self]
      exact h.sees_tail hm hseen (h.sound.consumer_fails (by decide) hi rfl rfl rfl) rfl rfl rfl
    · rw [if_neg hunder, SpscQueue.touchedBy_self]
      exact h.sees_tail hm hseen (h.sound.consumer_goto hi rfl rfl rfl
        (SpscSystem.consumerAt_peekCopy hi hn (h.data_of_loads hm hseen hunder))) rfl rfl rfl
  | @peekCopy n segs out hn hdata hread =>
    cases segs with
    | nil =>
      obtain rfl : out = (stream.drop H).take n.toNat := hread.done
      exact ⟨H, h.quiet (h.sound.consumer_peeks hn hdata) rfl rfl rfl⟩
    | cons seg segs =>
      obtain ⟨off, len⟩ := seg
      obtain ⟨hoff, hseg, n', hn', -⟩ := hread.covers.of_cons
      have hlen := hread.length_le
      have hstep : consumerStep s.base.queue m.value (.peekCopy ((off, len) :: segs) out)
          = (s.base.queue,
            .goto (.peekCopy segs (out ++ copyOut s.base.queue.buffer off len))) := rfl
      rw [consumerGoes, hstep, SpscQueue.touchedBy_self]
      exact ⟨H, h.consumer_copies (Nat.le_add_right H out.length) ⟨hoff, hseg⟩ (by omega)
        (h.sound.consumer_goto hi rfl rfl rfl
          (.peekCopy hn hdata (hkeep.copyOut hread (Nat.le_add_right H _) hdata))) rfl rfl rfl⟩

/-- **A step of the consumer races** exactly if it copies for a peek beyond what is acquired. -/
theorem Inv.raceFree_stepConsumer_iff (h : Inv k stream H s) (hfree : RaceFree s.timeline.log)
    {pc : ConsumerPc} (hpc : s.base.consumer = .inside call pc touched) (i : ℕ)
    (m : Stored Side Size) :
    RaceFree (s.consumerOrders i m pc).timeline.log ↔ pc.CopiesBelow H s.reach := by
  have hi := h.sound.indexed
  have hocc : (stream.drop H).length = stream.length - H := List.length_drop
  have hat := h.sound.consumer
  rw [hpc] at hat
  cases hat with
  | loadHead | loadTail | peekLoadHead | peekLoadTail => exact iff_of_true hfree trivial
  | @copy call r segs out hcall hr hdata hread =>
    cases segs with
    | nil => exact iff_of_true hfree trivial
    | cons seg segs =>
      obtain ⟨off, len⟩ := seg
      obtain ⟨p, hp, hpT, hsnap⟩ := id hdata
      obtain ⟨hoff, hseg, n, hn, -⟩ := hread.covers.of_cons
      have hlen := hread.length_le
      -- the snapshot was acquired when it was refreshed
      have hreach := h.published.le_reach hi.k_lt hi.tail_le hpT hsnap
      refine iff_of_true ((h.raceFree_consumer_iff hfree ⟨hoff, hseg⟩
        (Nat.le_add_right H out.length) (by omega)).mpr fun j hj => by omega) trivial
  | @peekCopy n segs out hn hdata hread =>
    cases segs with
    | nil => exact iff_of_true hfree trivial
    | cons seg segs =>
      obtain ⟨off, len⟩ := seg
      obtain ⟨hoff, hseg, n', hn', -⟩ := hread.covers.of_cons
      have hlen := hread.length_le
      exact h.raceFree_consumer_iff hfree ⟨hoff, hseg⟩ (Nat.le_add_right H out.length) (by omega)

end ConsumerSteps

/-! ## Runs -/

/-- If the step copies for a peek, it copies what the consumer's thread has acquired. -/
def PeeksAcquired (s : WeakSystem) : WeakAction → Prop
  | .stepConsumer _ => ∀ call pc touched, s.base.consumer = .inside call pc touched →
    pc.CopiesBelow s.base.dequeued.length s.reach
  | _ => True

instance (s : WeakSystem) : DecidablePred s.PeeksAcquired
  | .stepConsumer _ =>
    match h : s.base.consumer with
    | .idle => .isTrue fun _ _ _ hpc => by simp [h] at hpc
    | .inside call pc touched =>
      decidable_of_iff (pc.CopiesBelow s.base.dequeued.length s.reach)
        ⟨fun hacquired _ _ _ hpc => (Thread.inside.inj (h.symm.trans hpc)).2.1 ▸ hacquired,
          fun hall => hall call pc touched h⟩
  | .produce _ | .consume _ | .stepProducer _ => inferInstanceAs (Decidable True)
  | .raise _ | .observe _ => inferInstanceAs (Decidable True)

section Runs

variable {s s' : WeakSystem} {k H : ℕ} {stream : List Byte} {a : WeakAction} {call : Call}

/-- **A call of the producer begins with the invariant.** -/
theorem Inv.beginProducer (h : Inv k stream H s) (hidle : s.base.producer = .idle)
    (hv : call.Valid) {next : Next ProducerPc Reply}
    (hbegin : s.base.queue.beginProducer call = some next) :
    Inv k stream H { s with base := s.base.producerGoes call false s.base.queue next } := by
  have hi := h.sound.indexed
  have hstart : s.base.inFlight = 0 := by rw [SpscSystem.inFlight, hidle]
  have hat := h.sound.producer
  rw [hidle] at hat
  obtain ⟨hkeep⟩ := hat
  obtain ⟨x, hx, rfl⟩ := Option.map_eq_some_iff.mp hbegin
  rw [hkeep.isSome] at hx
  obtain ⟨hcall, ⟨rfl, hd⟩ | ⟨r, rfl, hr⟩⟩ := checkEnqueue_spec hx hv
  · exact h.quiet (h.sound.producer_fails (by decide) hi rfl rfl hkeep) hstart.symm rfl rfl
  · exact h.quiet (h.sound.producer_goto hi rfl rfl (.loadTail hcall hr hkeep)) hstart.symm rfl rfl

/-- **A call of the consumer begins with the invariant.** -/
theorem Inv.beginConsumer (h : Inv k stream H s) (hv : call.Valid)
    {next : Next ConsumerPc Reply} (hbegin : s.base.queue.beginConsumer call = some next) :
    Inv k stream H { s with base := s.base.consumerGoes call false s.base.queue next } := by
  have hi := h.sound.indexed
  obtain ⟨done, hkeep⟩ := h.sound.producer.keeps
  have hdequeue (hmap : (checkDequeue s.base.queue.buffer.isSome call).map (.ofCheck .loadHead)
      = some next) :
      Inv k stream H { s with base := s.base.consumerGoes call false s.base.queue next } := by
    obtain ⟨x, hx, rfl⟩ := Option.map_eq_some_iff.mp hmap
    rw [hkeep.isSome] at hx
    obtain ⟨hcall, ⟨rfl, hn⟩ | ⟨r, rfl, hr⟩⟩ := checkDequeue_spec hx hv
    · exact h.quiet (h.sound.consumer_fails (by decide) hi rfl rfl rfl) rfl rfl rfl
    · exact h.quiet (h.sound.consumer_goto hi rfl rfl rfl (.loadHead hcall hr)) rfl rfl rfl
  cases call with
  | peekBytes n =>
    obtain rfl := Option.some.inj hbegin
    rw [hkeep.isSome, if_neg (by decide)]
    by_cases hn : n = 0#64
    · rw [if_pos hn]
      exact h.quiet (h.sound.consumer_fails (by decide) hi rfl rfl rfl) rfl rfl rfl
    · rw [if_neg hn]
      exact h.quiet (h.sound.consumer_goto hi rfl rfl rfl
        (.peekLoadHead fun h0 => hn (BitVec.eq_of_toNat_eq h0))) rfl rfl rfl
  | _ => exact hdequeue hbegin

/-- **Every step keeps the invariant.** -/
theorem Inv.step (h : Inv k stream H s) (hv : a.Valid) (hstep : s.step a = some s') :
    ∃ stream' H', Inv k stream' H' s' := by
  cases stepped_of_step hstep with
  | produce hidle hbegin => exact ⟨stream, H, h.beginProducer hidle hv hbegin⟩
  | consume hidle hbegin => exact ⟨stream, H, h.beginConsumer hv hbegin⟩
  | stepProducer hpc hm hseen =>
    obtain ⟨stream', hinv⟩ := h.stepProducer hpc hm hseen
    exact ⟨stream', H, hinv⟩
  | stepConsumer hpc hm hseen =>
    obtain ⟨H', hinv⟩ := h.stepConsumer hpc hm hseen
    exact ⟨stream, H', hinv⟩
  | raise hidle => exact ⟨stream, H, h.raise hidle _⟩
  | observe hidle hm hseen => exact ⟨stream, H, h.observe hm⟩

/-- A reserved queue starts with the invariant. -/
theorem inv_of_reserve {mem : Allocator} {n : Size} {q : SpscQueue}
    (hq : SpscQueue.reserve mem n = some q) (hbuf : q.buffer.isSome) :
    ∃ k, Inv k [] 0 (init q) := by
  obtain ⟨k, _, _, hi, hkeep⟩ := SpscQueue.indexed_of_reserve hq hbuf
  obtain ⟨p, hp, -, hhead⟩ := hi.headSnapshot
  obtain ⟨p', -, hp', htail⟩ := hi.tailSnapshot
  obtain rfl := Nat.le_zero.mp hp
  obtain rfl := Nat.le_zero.mp hp'
  refine ⟨k, ?_⟩
  exact
    { sound :=
        { explained := .nil
          enqueued_eq := rfl
          dequeued_length := rfl
          indexed := hi
          producer := .idle hkeep
          consumer := .idle }
      handed :=
        { heads := .singleton hi.head_eq
          acquired := ⟨0, _, le_refl 0, rfl, hi.head_eq.trans hhead.symm, le_refl 0,
            (Nat.zero_sub _).le⟩
          reads := ⟨nofun, nofun⟩ }
      published :=
        { tails := .singleton hi.tail_eq
          nested := ⟨by simp [init, releases], by simp [init, releases]⟩
          latest := ⟨_, rfl, rfl⟩
          flagged := by simp [init]
          observed := ⟨_, 0, rfl, le_refl 0⟩
          shown := ⟨0, _, htail, le_refl 0, le_refl 0, rfl, le_refl 0⟩
          reached := ⟨_, List.mem_cons_self, rfl, rfl⟩
          writes := ⟨nofun, nofun⟩
          written := nofun } }

/-- **Every state reached has the invariant**, whether peeks race or not. -/
theorem inv_of_reaches {mem : Allocator} {n : Size} {q : SpscQueue}
    (hq : SpscQueue.reserve mem n = some q) (hbuf : q.buffer.isSome)
    (hrun : Reaches WeakSystem.step (fun _ a => a.Valid) (init q) s) :
    ∃ k stream H, Inv k stream H s := by
  obtain ⟨k, hinit⟩ := inv_of_reserve hq hbuf
  refine ⟨k, hrun.invariant (I := fun s => ∃ stream H, Inv k stream H s) ⟨[], 0, hinit⟩ ?_⟩
  rintro s s' a ⟨stream, H, h⟩ hv hstep
  exact h.step hv hstep

/-- **A step races** exactly if it copies for a peek beyond what is acquired: then it does with the
enqueue of these bytes. -/
theorem Inv.raceFree_iff (h : Inv k stream H s) (hfree : RaceFree s.timeline.log)
    (hstep : s.step a = some s') : RaceFree s'.timeline.log ↔ s.PeeksAcquired a := by
  cases stepped_of_step hstep with
  | produce | consume | raise | observe => exact iff_of_true hfree trivial
  | stepProducer hpc => exact iff_of_true (h.raceFree_stepProducer hfree hpc _ _) trivial
  | @stepConsumer i m call pc touched hpc =>
    refine (h.raceFree_stepConsumer_iff hfree hpc i m).trans ?_
    rw [← h.sound.dequeued_length]
    refine ⟨fun hbelow call' pc' touched' hpc' => ?_, fun hall => hall call pc touched hpc⟩
    obtain ⟨rfl, rfl, rfl⟩ := Thread.inside.inj (hpc.symm.trans hpc')
    exact hbelow

/-- **What holds under the memory orders**: the calls that succeeded answer as the stream, the bytes
dequeued are a prefix of the bytes enqueued, at most one capacity behind, and no two copies race. -/
structure RefinesStream (s : WeakSystem) : Prop where
  explained : Explains (Stream.machine s.base.queue.capacity.toNat) []
    (s.base.history.filter Succeeded) (s.base.enqueued.drop s.base.dequeued.length)
  delivered : s.base.dequeued <+: s.base.enqueued
  room : s.base.enqueued.length ≤ s.base.dequeued.length + s.base.queue.capacity.toNat
  raceFree : RaceFree s.timeline.log

/-- **The invariant is enough**, where no copies have raced. -/
theorem Inv.refines (h : Inv k stream H s) (hfree : RaceFree s.timeline.log) :
    s.RefinesStream := by
  have hi := h.sound.indexed
  have hk : 2 ^ k < 2 ^ 64 := Nat.pow_lt_pow_right (by norm_num) hi.k_lt
  have hcap : s.base.queue.capacity.toNat = 2 ^ k := by
    rw [hi.capacity_eq, toNat_ofNat_of_lt hk]
  obtain ⟨ledger, hcontents, hpop, hpush⟩ := Stream.ledger_of_explains h.sound.explained
  rw [Stream.popped, flatMap_filter_of_nil fun hs => (moved_nil_of_not_succeeded hs).2] at hpop
  rw [Stream.pushed, flatMap_filter_of_nil fun hs => (moved_nil_of_not_succeeded hs).1] at hpush
  refine ⟨?_, ?_, ?_, hfree⟩
  · rw [hcap, h.sound.enqueued_eq, h.sound.dequeued_length]
    exact h.sound.explained
  · have hprefix := ledger.popped_le_pushed
    rwa [hpop, hpush] at hprefix
  · rw [hcap, h.sound.enqueued_eq, h.sound.dequeued_length]
    exact hi.tail_le

/-- **`SpscQueue` under the memory orders of its code**: from any reserved queue on, whatever stores
the loads return, the successful calls answer as a FIFO stream and no copies race, as long as the
peeks copy only bytes below the tail that the consumer has acquired — and the first peek that goes
beyond it does race. -/
theorem races_iff {mem : Allocator} {n : Size} {q : SpscQueue}
    (hq : SpscQueue.reserve mem n = some q) (hbuf : q.buffer.isSome)
    (hrun : Reaches WeakSystem.step (fun s a => a.Valid ∧ s.PeeksAcquired a) (init q) s) :
    s.RefinesStream ∧ ∀ {a s'}, a.Valid → s.step a = some s' →
      (s'.RefinesStream ↔ s.PeeksAcquired a) := by
  obtain ⟨k, hinit⟩ := inv_of_reserve hq hbuf
  obtain ⟨⟨stream, H, h⟩, hfree⟩ := hrun.invariant
    (I := fun s => (∃ stream H, Inv k stream H s) ∧ RaceFree s.timeline.log)
    ⟨⟨[], 0, hinit⟩, .nil⟩ fun ⟨⟨_, _, h⟩, hfree⟩ ⟨hv, hpeek⟩ hstep =>
      ⟨h.step hv hstep, (h.raceFree_iff hfree hstep).mpr hpeek⟩
  refine ⟨h.refines hfree, fun hv hstep => ⟨fun href => ?_, fun hpeek => ?_⟩⟩
  · exact (h.raceFree_iff hfree hstep).mp href.raceFree
  · obtain ⟨stream', H', h'⟩ := h.step hv hstep
    exact h'.refines ((h.raceFree_iff hfree hstep).mpr hpeek)

/-- A peek that finds the bytes of an enqueue races with it: the load that found them has acquired
nothing. -/
theorem peek_races : ∃ q s, SpscQueue.reserve .zeroed 4#64 = some q
    ∧ execute WeakSystem.step (fun _ a => decide a.Valid) (init q)
        [.produce (.enqueueBytes [1, 2, 3]), .stepProducer 0, .stepProducer 0, .stepProducer 0,
          .consume (.peekBytes 2#64), .stepConsumer 0, .stepConsumer 1, .stepConsumer 1]
      = some s
    ∧ ¬ RaceFree s.timeline.log := by
  obtain ⟨s, hs, hout⟩ : ∃ s, execute WeakSystem.step (fun _ a => decide a.Valid)
      (init { buffer := some (List.replicate 68 0), capacity := 4#64, mask := 3#64 })
      [.produce (.enqueueBytes [1, 2, 3]), .stepProducer 0, .stepProducer 0, .stepProducer 0,
        .consume (.peekBytes 2#64), .stepConsumer 0, .stepConsumer 1, .stepConsumer 1]
      = some s ∧ decide (RaceFree s.timeline.log) = false := Option.map_eq_some_iff.mp rfl
  exact ⟨_, s, rfl, hs, of_decide_eq_false hout⟩

/-- A dequeue acquires the tail, and the peek after it stays below; the second enqueue runs out of
its snapshot, and first finds no room by an old store. -/
theorem races_iff_four : ∃ q s, SpscQueue.reserve .zeroed 4#64 = some q
    ∧ execute WeakSystem.step (fun s a => decide (a.Valid ∧ s.PeeksAcquired a)) (init q)
        [.produce (.enqueueBytes [1, 2, 3]), .stepProducer 0, .stepProducer 0, .stepProducer 0,
          .consume (.dequeueBytes 1#64), .stepConsumer 0, .stepConsumer 1, .stepConsumer 1,
          .stepConsumer 1, .consume (.peekBytes 2#64), .stepConsumer 1, .stepConsumer 1,
          .produce (.enqueueBytes [4, 5]), .stepProducer 0, .stepProducer 0,
          .stepConsumer 1, .stepConsumer 1, .produce (.enqueueBytes [6, 7]), .stepProducer 0,
          .stepProducer 1, .stepProducer 1, .stepProducer 1, .stepProducer 1]
      = some s
    ∧ s.base.enqueued = [1, 2, 3, 6, 7] ∧ s.RefinesStream := by
  obtain ⟨s, hs, hout⟩ : ∃ s, execute WeakSystem.step
      (fun s a => decide (a.Valid ∧ s.PeeksAcquired a))
      (init { buffer := some (List.replicate 68 0), capacity := 4#64, mask := 3#64 })
      [.produce (.enqueueBytes [1, 2, 3]), .stepProducer 0, .stepProducer 0, .stepProducer 0,
        .consume (.dequeueBytes 1#64), .stepConsumer 0, .stepConsumer 1, .stepConsumer 1,
        .stepConsumer 1, .consume (.peekBytes 2#64), .stepConsumer 1, .stepConsumer 1,
        .produce (.enqueueBytes [4, 5]), .stepProducer 0, .stepProducer 0,
        .stepConsumer 1, .stepConsumer 1, .produce (.enqueueBytes [6, 7]), .stepProducer 0,
        .stepProducer 1, .stepProducer 1, .stepProducer 1, .stepProducer 1]
      = some s ∧ s.base.enqueued = [1, 2, 3, 6, 7] := Option.map_eq_some_iff.mp rfl
  have hq : SpscQueue.reserve .zeroed 4#64
      = some { buffer := some (List.replicate 68 0), capacity := 4#64, mask := 3#64 } := rfl
  exact ⟨_, s, hq, hs, hout, (races_iff hq rfl (Reaches.of_execute of_decide_eq_true hs)).1⟩

/-! ## The flag -/

/-- How much had been enqueued before the newest store of the flag that the consumer has seen. -/
def promised (s : WeakSystem) : ℕ :=
  ((s.flags[s.flagSeen]?).map fun f => f.1.position).getD 0

theorem refused_of_beginProducer {q : SpscQueue} {reply : Reply}
    (h : q.beginProducer call = some (.ret reply)) :
    ∃ status, Refused status ∧ reply = .status status [] := by
  obtain ⟨x, hx, hnext⟩ := Option.map_eq_some_iff.mp h
  obtain ⟨status, rfl, hreply⟩ := Next.eq_error_of_ofCheck hnext
  exact ⟨status, refused_of_checkEnqueue hx, hreply⟩

theorem refused_of_beginConsumer {q : SpscQueue} {reply : Reply}
    (h : q.beginConsumer call = some (.ret reply)) :
    ∃ status, Refused status ∧ reply = .status status [] := by
  have hdequeue (hmap : (checkDequeue q.buffer.isSome call).map (Next.ofCheck ConsumerPc.loadHead)
      = some (Next.ret reply)) : ∃ status, Refused status ∧ reply = .status status [] := by
    obtain ⟨x, hx, hnext⟩ := Option.map_eq_some_iff.mp hmap
    obtain ⟨status, rfl, hreply⟩ := Next.eq_error_of_ofCheck hnext
    exact ⟨status, refused_of_checkDequeue hx, hreply⟩
  cases call with
  | peekBytes n =>
    have hnext := Option.some.inj h
    split_ifs at hnext
    · exact ⟨.kUninitialized, .inl rfl, (Next.ret.inj hnext).symm⟩
    · exact ⟨.kSizeIsZero, .inr rfl, (Next.ret.inj hnext).symm⟩
  | _ => exact hdequeue h

/-- **The consumer's check** fails only for want of what the flag promised. -/
theorem Inv.promised_lt (h : Inv k stream H s) {i : ℕ} {m : Stored Side Size}
    (hm : s.tails[i]? = some m) (hseen : s.tailSeen ≤ i) {n : ℕ} (hn : n < 2 ^ 64)
    (hunder : m.value - s.base.queue.headIdx < BitVec.ofNat 64 n) : s.promised < H + n := by
  have hi := h.sound.indexed
  have hT := hi.tail_le
  obtain ⟨hvalue, hlo, hhi⟩ := h.published.loads hm hseen
  obtain ⟨f, last, hf, -⟩ := h.published.observed
  have hle := h.published.flag_le hm hseen hf
  rw [hvalue, hi.head_eq, lacks_data_iff hi.k_lt hlo (by omega) hn] at hunder
  rw [promised, hf]
  dsimp only [Option.map_some, Option.getD_some]
  omega

/-- **An underflow tells the truth about what the flag promised.** -/
theorem Inv.underflow (h : Inv k stream H s) (hstep : s.step a = some s') {touched : Bool}
    (hret : s'.base.returned = s.base.returned ++ [⟨call, .status .kUnderflow [], touched⟩]) :
    s.promised < H + call.asked := by
  have hunrefused : ¬ Refused .kUnderflow := by rintro (h | h) <;> cases h
  cases stepped_of_step hstep with
  | produce hidle hbegin =>
    obtain ⟨rfl, rfl⟩ := Next.eq_ret_of_returned (List.append_cancel_left hret)
    obtain ⟨status, hrefused, hreply⟩ := refused_of_beginProducer hbegin
    exact absurd ((Reply.status.inj hreply).1 ▸ hrefused) hunrefused
  | consume hidle hbegin =>
    obtain ⟨rfl, rfl⟩ := Next.eq_ret_of_returned (List.append_cancel_left hret)
    obtain ⟨status, hrefused, hreply⟩ := refused_of_beginConsumer hbegin
    exact absurd ((Reply.status.inj hreply).1 ▸ hrefused) hunrefused
  | stepProducer hpc hm hseen =>
    obtain ⟨-, hnext⟩ := Next.eq_ret_of_returned (List.append_cancel_left hret)
    exact absurd (SpscSystem.stepProducer_fails hnext (by decide)).1 (by decide)
  | stepConsumer hpc hm hseen =>
    obtain ⟨rfl, hnext⟩ := Next.eq_ret_of_returned (List.append_cancel_left hret)
    have hat := h.sound.consumer
    rw [hpc] at hat
    obtain ⟨-, ⟨r, head, rfl, hunder⟩ | ⟨n, head, rfl, hunder⟩⟩ :=
      SpscSystem.stepConsumer_fails hnext (by decide)
    · cases hat with
      | loadTail hcall hr =>
        rw [hr.total_eq] at hunder
        exact h.promised_lt hm hseen hr.lt hunder
    · cases hat with
      | peekLoadTail hn =>
        have hword : n = BitVec.ofNat 64 n.toNat := eq_ofNat_of_toNat_eq rfl
        rw [hword] at hunder
        exact h.promised_lt hm hseen n.isLt hunder
  | raise hidle => simp [raises] at hret
  | observe hidle hm hseen => simp [observes] at hret

/-- **Once the consumer's thread has loaded the flag**, a dequeue or a peek finds too little only if
what was enqueued before the store of the flag leaves fewer bytes than it asks for, whatever store
of the tail it loads — and whether or not the peeks before it have raced. -/
theorem underflow_after_flag {mem : Allocator} {n : Size} {q : SpscQueue}
    (hq : SpscQueue.reserve mem n = some q) (hbuf : q.buffer.isSome)
    (hrun : Reaches WeakSystem.step (fun _ a => a.Valid) (init q) s)
    (hstep : s.step a = some s') {touched : Bool}
    (hret : s'.base.returned = s.base.returned ++ [⟨call, .status .kUnderflow [], touched⟩]) :
    s.promised < s.base.dequeued.length + call.asked := by
  obtain ⟨k, stream, H, h⟩ := inv_of_reaches hq hbuf hrun
  rw [h.sound.dequeued_length]
  exact h.underflow hstep hret

/-- An enqueue, a peek that races with it, the flag, a dequeue of all of it, and a peek that finds
nothing. -/
theorem underflow_after_flag_four : ∃ q s s', SpscQueue.reserve .zeroed 4#64 = some q
    ∧ execute WeakSystem.step (fun _ a => decide a.Valid) (init q)
        [.produce (.enqueueBytes [1, 2, 3]), .stepProducer 0, .stepProducer 0, .stepProducer 0,
          .consume (.peekBytes 2#64), .stepConsumer 0, .stepConsumer 1, .stepConsumer 1,
          .stepConsumer 1, .raise 1#64, .observe 1, .consume (.dequeueBytes 3#64), .stepConsumer 1,
          .stepConsumer 1, .stepConsumer 1, .stepConsumer 1, .consume (.peekBytes 2#64),
          .stepConsumer 1]
      = some s
    ∧ s.step (.stepConsumer 1) = some s'
    ∧ s'.base.returned = s.base.returned ++ [⟨.peekBytes 2#64, .status .kUnderflow [], false⟩]
    ∧ s.promised < s.base.dequeued.length + 2 := by
  obtain ⟨s, hs, s', hs', hret⟩ : ∃ s, execute WeakSystem.step (fun _ a => decide a.Valid)
      (init { buffer := some (List.replicate 68 0), capacity := 4#64, mask := 3#64 })
      [.produce (.enqueueBytes [1, 2, 3]), .stepProducer 0, .stepProducer 0, .stepProducer 0,
        .consume (.peekBytes 2#64), .stepConsumer 0, .stepConsumer 1, .stepConsumer 1,
        .stepConsumer 1, .raise 1#64, .observe 1, .consume (.dequeueBytes 3#64), .stepConsumer 1,
        .stepConsumer 1, .stepConsumer 1, .stepConsumer 1, .consume (.peekBytes 2#64),
        .stepConsumer 1]
      = some s ∧ ∃ s', s.step (.stepConsumer 1) = some s' ∧ s'.base.returned = s.base.returned
        ++ [⟨.peekBytes 2#64, .status .kUnderflow [], false⟩] :=
    ⟨_, rfl, _, rfl, rfl⟩
  have hq : SpscQueue.reserve .zeroed 4#64
      = some { buffer := some (List.replicate 68 0), capacity := 4#64, mask := 3#64 } := rfl
  exact ⟨_, s, s', hq, hs, hs', hret,
    underflow_after_flag hq rfl (Reaches.of_execute of_decide_eq_true hs) hs' hret⟩

/-- Without the flag the peek may load an old tail: it finds nothing of an enqueue that has
returned. -/
example : ∃ s, execute WeakSystem.step (fun s a => decide (a.Valid ∧ s.PeeksAcquired a))
    (init { buffer := some (List.replicate 68 0), capacity := 4#64, mask := 3#64 })
    [.produce (.enqueueBytes [1, 2, 3]), .stepProducer 0, .stepProducer 0, .stepProducer 0,
      .consume (.peekBytes 2#64), .stepConsumer 0, .stepConsumer 0] = some s
    ∧ s.base.history
      = [(.enqueueBytes [1, 2, 3], .status .kOk []), (.peekBytes 2#64, .status .kUnderflow [])] :=
  ⟨_, rfl, rfl⟩

end Runs

end WeakSystem

end Femtolog
