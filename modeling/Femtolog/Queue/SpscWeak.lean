import Femtolog.Foundations.Clocks
import Femtolog.Queue.SpscSteps

/-!
# Queue/SpscWeak — `SpscQueue` in steps, under the memory orders of its code

The loads and stores of `head_idx_` and `tail_idx_` are not sequentially consistent: a load may
return any store that coherence still allows, and only an acquire load of what was stored after a
release fence orders the copies of the two threads.  A system in which each load picks the store it
returns, and each thread has the clock its loads have given it; the copies are plain accesses, and
may race.

The acquire loads are the two that refresh a snapshot.  The loads of a thread's own index are
relaxed, and return its last store.  Both loads of a peek are relaxed.  Between two calls the
threads may also meet at a flag that the producer's thread stores with release and the consumer's
loads with acquire, as `shutdown_required_` and `flush_requested_seq_` are.
-/

namespace Femtolog

/-- The two threads of the queue. -/
inductive Side
  | producer
  | consumer
  deriving DecidableEq

theorem Side.eq_consumer {t : Side} (h : t ≠ .producer) : t = .consumer := by
  cases t with
  | producer => exact absurd rfl h
  | consumer => rfl

theorem Side.eq_producer {t : Side} (h : t ≠ .consumer) : t = .producer := by
  cases t with
  | producer => rfl
  | consumer => exact absurd rfl h

/-- The queue with its two threads; the stores to `head_idx_`, to `tail_idx_` and to the flag,
oldest first, each of the flag's with the number of the last store to `tail_idx_` before it; the
number of the newest store of each that the other thread has loaded; the position up to which the
consumer has acquired; and the accesses to the buffer. -/
structure WeakSystem where
  base : SpscSystem
  heads : List (Stored Side Size)
  tails : List (Stored Side Size)
  flags : List (Stored Side Size × ℕ)
  headSeen : ℕ
  tailSeen : ℕ
  flagSeen : ℕ
  reach : ℕ
  timeline : Timeline Side

/-- A thread starts a call, takes a step of the call it is in, or stores or loads the flag between
two calls; where this loads what the other side stores, it returns the store of number `i`. -/
inductive WeakAction
  | produce (call : Call)
  | consume (call : Call)
  | stepProducer (i : ℕ)
  | stepConsumer (i : ℕ)
  | raise (value : Size)
  | observe (i : ℕ)

/-- The sizes of a started call are valid. -/
def WeakAction.Valid : WeakAction → Prop
  | .produce call => call.Valid
  | .consume call => call.Valid
  | _ => True

instance : DecidablePred WeakAction.Valid
  | .produce call | .consume call => inferInstanceAs (Decidable call.Valid)
  | .stepProducer _ | .stepConsumer _ => inferInstanceAs (Decidable True)
  | .raise _ | .observe _ => inferInstanceAs (Decidable True)

namespace WeakSystem

/-- A queue at the start, known to both threads. -/
def init (q : SpscQueue) : WeakSystem where
  base := { queue := q }
  heads := [⟨q.headIdx, 0, 0⟩]
  tails := [⟨q.tailIdx, 0, 0⟩]
  flags := [(⟨0#64, 0, 0⟩, 0)]
  headSeen := 0
  tailSeen := 0
  flagSeen := 0
  reach := 0
  timeline := {}

/-! ## Memory orders -/

/-- What a step of the producer does to the memory: `load(acquire)` of the store `m` to `head_idx_`,
a `memcpy` into the buffer, or the release fence with the store of `tail_idx_`. -/
def producerOrders (s : WeakSystem) (i : ℕ) (m : Stored Side Size) : ProducerPc → WeakSystem
  | .loadTail _ => s
  | .loadHead _ _ => { s with headSeen := i, timeline := s.timeline.acquire .producer m.clock }
  | .copy _ _ ((off, len) :: _) _ =>
    { s with timeline := s.timeline.access .producer true off len }
  | .copy r tail [] _ =>
    { s with tails := s.tails ++ [⟨tail + r.total, s.timeline.clock .producer,
        s.base.enqueued.length + r.total.toNat⟩] }

/-- What a step of the consumer does to the memory.  A peek loads `tail_idx_` relaxed: it takes the
value of the store `m`, and nothing of its clock. -/
def consumerOrders (s : WeakSystem) (i : ℕ) (m : Stored Side Size) : ConsumerPc → WeakSystem
  | .loadHead _ => s
  | .loadTail _ _ =>
    { s with
      tailSeen := i
      reach := max s.reach m.position
      timeline := s.timeline.acquire .consumer m.clock }
  | .copy _ _ ((off, len) :: _) _ =>
    { s with timeline := s.timeline.access .consumer false off len }
  | .copy r head [] _ =>
    { s with heads := s.heads ++ [⟨head + r.total, s.timeline.clock .consumer,
        s.base.dequeued.length + r.total.toNat⟩] }
  | .peekLoadHead _ => s
  | .peekLoadTail _ _ => { s with tailSeen := i }
  | .peekCopy ((off, len) :: _) _ =>
    { s with timeline := s.timeline.access .consumer false off len }
  | .peekCopy [] _ => s

/-! ## Steps -/

/-- The producer's step of the code, on a queue whose `head_idx_` reads as `head`. -/
def producerStep (q : SpscQueue) (head : Size) (pc : ProducerPc) :
    SpscQueue × Next ProducerPc Reply :=
  let r := SpscQueue.stepProducer { q with headIdx := head } pc
  ({ r.1 with headIdx := q.headIdx }, r.2)

/-- The consumer's step of the code, on a queue whose `tail_idx_` reads as `tail`. -/
def consumerStep (q : SpscQueue) (tail : Size) (pc : ConsumerPc) :
    SpscQueue × Next ConsumerPc Reply :=
  let r := SpscQueue.stepConsumer { q with tailIdx := tail } pc
  ({ r.1 with tailIdx := q.tailIdx }, r.2)

/-- The producer goes where its step leads. -/
def producerGoes (s : WeakSystem) (i : ℕ) (m : Stored Side Size) (call : Call) (pc : ProducerPc)
    (touched : Bool) : WeakSystem :=
  let r := producerStep s.base.queue m.value pc
  { s.producerOrders i m pc with
    base := s.base.producerGoes call (touched || s.base.queue.touchedBy r.1) r.1 r.2 }

/-- The consumer goes where its step leads. -/
def consumerGoes (s : WeakSystem) (i : ℕ) (m : Stored Side Size) (call : Call) (pc : ConsumerPc)
    (touched : Bool) : WeakSystem :=
  let r := consumerStep s.base.queue m.value pc
  { s.consumerOrders i m pc with
    base := s.base.consumerGoes call (touched || s.base.queue.touchedBy r.1) r.1 r.2 }

/-- The producer's thread stores the flag, after a release. -/
def raises (s : WeakSystem) (value : Size) : WeakSystem :=
  { s with
    flags := s.flags
      ++ [(⟨value, s.timeline.clock .producer, s.base.enqueued.length⟩, s.tails.length - 1)] }

/-- The consumer's thread loads the flag, with acquire, and finds the store `m`: what was stored to
`tail_idx_` before it, up to number `last`, is coherence's past. -/
def observes (s : WeakSystem) (i : ℕ) (m : Stored Side Size) (last : ℕ) : WeakSystem :=
  { s with
    flagSeen := i
    tailSeen := max s.tailSeen last
    reach := max s.reach m.position
    timeline := s.timeline.acquire .consumer m.clock }

/-- **One step of the system.**  A load returns no store older than one its thread has loaded. -/
def step (s : WeakSystem) : WeakAction → Option WeakSystem
  | .produce call => (s.base.step (.produce call)).map fun base => { s with base := base }
  | .consume call => (s.base.step (.consume call)).map fun base => { s with base := base }
  | .stepProducer i =>
    match s.base.producer, s.heads[i]? with
    | .inside call pc touched, some m =>
      if i < s.headSeen then none else some (s.producerGoes i m call pc touched)
    | _, _ => none
  | .stepConsumer i =>
    match s.base.consumer, s.tails[i]? with
    | .inside call pc touched, some m =>
      if i < s.tailSeen then none else some (s.consumerGoes i m call pc touched)
    | _, _ => none
  | .raise value =>
    match s.base.producer with
    | .idle => some (s.raises value)
    | .inside _ _ _ => none
  | .observe i =>
    match s.base.consumer, s.flags[i]? with
    | .idle, some (m, last) => if i < s.flagSeen then none else some (s.observes i m last)
    | _, _ => none

/-- **What a step of the system can do.** -/
inductive Stepped (s : WeakSystem) : WeakAction → WeakSystem → Prop
  | produce {call : Call} {next : Next ProducerPc Reply} (hidle : s.base.producer = .idle)
      (hbegin : s.base.queue.beginProducer call = some next) :
      Stepped s (.produce call)
        { s with base := s.base.producerGoes call false s.base.queue next }
  | consume {call : Call} {next : Next ConsumerPc Reply} (hidle : s.base.consumer = .idle)
      (hbegin : s.base.queue.beginConsumer call = some next) :
      Stepped s (.consume call)
        { s with base := s.base.consumerGoes call false s.base.queue next }
  | stepProducer {i : ℕ} {m : Stored Side Size} {call : Call} {pc : ProducerPc} {touched : Bool}
      (hpc : s.base.producer = .inside call pc touched) (hm : s.heads[i]? = some m)
      (hseen : s.headSeen ≤ i) : Stepped s (.stepProducer i) (s.producerGoes i m call pc touched)
  | stepConsumer {i : ℕ} {m : Stored Side Size} {call : Call} {pc : ConsumerPc} {touched : Bool}
      (hpc : s.base.consumer = .inside call pc touched) (hm : s.tails[i]? = some m)
      (hseen : s.tailSeen ≤ i) : Stepped s (.stepConsumer i) (s.consumerGoes i m call pc touched)
  | raise {value : Size} (hidle : s.base.producer = .idle) :
      Stepped s (.raise value) (s.raises value)
  | observe {i last : ℕ} {m : Stored Side Size} (hidle : s.base.consumer = .idle)
      (hm : s.flags[i]? = some (m, last)) (hseen : s.flagSeen ≤ i) :
      Stepped s (.observe i) (s.observes i m last)

theorem stepped_of_step {s s' : WeakSystem} {a : WeakAction} (hstep : s.step a = some s') :
    Stepped s a s' := by
  cases a with
  | produce call =>
    obtain ⟨base, hbase, rfl⟩ := Option.map_eq_some_iff.mp hstep
    cases SpscSystem.stepped_of_step hbase with
    | produce hidle hbegin => exact .produce hidle hbegin
  | consume call =>
    obtain ⟨base, hbase, rfl⟩ := Option.map_eq_some_iff.mp hstep
    cases SpscSystem.stepped_of_step hbase with
    | consume hidle hbegin => exact .consume hidle hbegin
  | stepProducer i =>
    cases hp : s.base.producer with
    | idle => simp [step, hp] at hstep
    | inside call pc touched =>
      cases hm : s.heads[i]? with
      | none => simp [step, hp, hm] at hstep
      | some m =>
        simp only [step, hp, hm] at hstep
        split_ifs at hstep with hold
        obtain rfl := Option.some.inj hstep
        exact .stepProducer hp hm (Nat.le_of_not_lt hold)
  | stepConsumer i =>
    cases hc : s.base.consumer with
    | idle => simp [step, hc] at hstep
    | inside call pc touched =>
      cases hm : s.tails[i]? with
      | none => simp [step, hc, hm] at hstep
      | some m =>
        simp only [step, hc, hm] at hstep
        split_ifs at hstep with hold
        obtain rfl := Option.some.inj hstep
        exact .stepConsumer hc hm (Nat.le_of_not_lt hold)
  | raise value =>
    cases hp : s.base.producer with
    | idle =>
      simp only [step, hp] at hstep
      exact Option.some.inj hstep ▸ .raise hp
    | inside call pc touched => simp [step, hp] at hstep
  | observe i =>
    cases hc : s.base.consumer with
    | inside call pc touched => simp [step, hc] at hstep
    | idle =>
      cases hm : s.flags[i]? with
      | none => simp [step, hc, hm] at hstep
      | some stored =>
        simp only [step, hc, hm] at hstep
        split_ifs at hstep with hold
        exact Option.some.inj hstep ▸ .observe hc hm (Nat.le_of_not_lt hold)

/-! ## Interleavings

Where each load returns the newest store, the system takes the steps of the interleavings. -/

/-- The last of the stores is of this value, and may be loaded. -/
def Latest (stores : List (Stored Side Size)) (seen : ℕ) (value : Size) : Prop :=
  ∃ i m, stores[i]? = some m ∧ seen ≤ i ∧ i + 1 = stores.length ∧ m.value = value

theorem Latest.snoc {stores : List (Stored Side Size)} {seen : ℕ} {value : Size}
    (h : Latest stores seen value) (m : Stored Side Size) :
    Latest (stores ++ [m]) seen m.value := by
  obtain ⟨i, m', -, hseen, hlen, -⟩ := h
  refine ⟨stores.length, m, ?_, by omega, by rw [List.length_append, List.length_singleton], rfl⟩
  rw [List.getElem?_append_right (le_refl _), Nat.sub_self]
  rfl

/-- **The indices have the values of the last stores.** -/
structure Newest (s : WeakSystem) : Prop where
  head : Latest s.heads s.headSeen s.base.queue.headIdx
  tail : Latest s.tails s.tailSeen s.base.queue.tailIdx

theorem newest_init (q : SpscQueue) : Newest (init q) :=
  ⟨⟨0, _, rfl, le_refl 0, rfl, rfl⟩, ⟨0, _, rfl, le_refl 0, rfl, rfl⟩⟩

theorem producerStep_newest (q : SpscQueue) (pc : ProducerPc) :
    producerStep q q.headIdx pc = SpscQueue.stepProducer q pc := by
  rw [producerStep]
  cases pc with
  | loadTail | loadHead =>
    rw [SpscQueue.stepProducer]
    split_ifs <;> rfl
  | copy r tail segs rest => cases segs <;> rfl

theorem consumerStep_newest (q : SpscQueue) (pc : ConsumerPc) :
    consumerStep q q.tailIdx pc = SpscQueue.stepConsumer q pc := by
  rw [consumerStep]
  cases pc with
  | loadHead | loadTail | peekLoadTail =>
    rw [SpscQueue.stepConsumer]
    split_ifs <;> rfl
  | peekLoadHead => rfl
  | copy r head segs out => cases segs <;> rfl
  | peekCopy segs out => cases segs <;> rfl

variable {s : WeakSystem} {call : Call} {touched : Bool}

/-- The producer's step, loading the newest store. -/
theorem Newest.stepProducer (h : Newest s) {pc : ProducerPc}
    (hpc : s.base.producer = .inside call pc touched) :
    ∃ i s', s.step (.stepProducer i) = some s' ∧ s.base.step .stepProducer = some s'.base
      ∧ Newest s' := by
  obtain ⟨i, m, hm, hseen, hlast, hvalue⟩ := id h.head
  have hnext : producerStep s.base.queue m.value pc = s.base.queue.stepProducer pc :=
    hvalue ▸ producerStep_newest s.base.queue pc
  refine ⟨i, s.producerGoes i m call pc touched, ?_, ?_, ?_⟩
  · simp only [step, hpc, hm, if_neg (Nat.not_lt.mpr hseen)]
  · simp only [SpscSystem.step, hpc, producerGoes, hnext]
  · rw [producerGoes, hnext]
    cases pc with
    | loadTail r =>
      rw [SpscQueue.stepProducer]
      split_ifs <;> exact ⟨h.head, h.tail⟩
    | loadHead r tail =>
      rw [SpscQueue.stepProducer]
      split_ifs <;> exact ⟨⟨i, m, hm, le_refl i, hlast, hvalue⟩, h.tail⟩
    | copy r tail segs rest =>
      cases segs with
      | nil => exact ⟨h.head, h.tail.snoc ⟨tail + r.total, _, _⟩⟩
      | cons seg segs => exact ⟨h.head, h.tail⟩

/-- The consumer's step, loading the newest store. -/
theorem Newest.stepConsumer (h : Newest s) {pc : ConsumerPc}
    (hpc : s.base.consumer = .inside call pc touched) :
    ∃ i s', s.step (.stepConsumer i) = some s' ∧ s.base.step .stepConsumer = some s'.base
      ∧ Newest s' := by
  obtain ⟨i, m, hm, hseen, hlast, hvalue⟩ := id h.tail
  have hnext : consumerStep s.base.queue m.value pc = s.base.queue.stepConsumer pc :=
    hvalue ▸ consumerStep_newest s.base.queue pc
  refine ⟨i, s.consumerGoes i m call pc touched, ?_, ?_, ?_⟩
  · simp only [step, hpc, hm, if_neg (Nat.not_lt.mpr hseen)]
  · simp only [SpscSystem.step, hpc, consumerGoes, hnext]
  · rw [consumerGoes, hnext]
    cases pc with
    | loadHead r =>
      rw [SpscQueue.stepConsumer]
      split_ifs <;> exact ⟨h.head, h.tail⟩
    | loadTail r head =>
      rw [SpscQueue.stepConsumer]
      split_ifs <;> exact ⟨h.head, ⟨i, m, hm, le_refl i, hlast, hvalue⟩⟩
    | copy r head segs out =>
      cases segs with
      | nil => exact ⟨h.head.snoc ⟨head + r.total, _, _⟩, h.tail⟩
      | cons seg segs => exact ⟨h.head, h.tail⟩
    | peekLoadHead n => exact ⟨h.head, h.tail⟩
    | peekLoadTail n head =>
      rw [SpscQueue.stepConsumer]
      split_ifs <;> exact ⟨h.head, ⟨i, m, hm, le_refl i, hlast, hvalue⟩⟩
    | peekCopy segs out => cases segs <;> exact ⟨h.head, h.tail⟩

/-- **Every interleaving is a run under the memory orders.** -/
theorem exists_of_interleaving {q : SpscQueue} {b : SpscSystem}
    (hrun : Reaches SpscSystem.step (fun _ a => a.Valid) { queue := q } b) :
    ∃ s, Reaches WeakSystem.step (fun _ a => a.Valid) (init q) s ∧ s.base = b := by
  suffices ∃ s, Reaches WeakSystem.step (fun _ a => a.Valid) (init q) s ∧ s.base = b ∧ Newest s by
    obtain ⟨s, hs, hbase, -⟩ := this
    exact ⟨s, hs, hbase⟩
  refine hrun.simulate (R := fun b s => s.base = b ∧ Newest s) ⟨rfl, newest_init q⟩ ?_
  rintro b b' a s ⟨rfl, h⟩ hv hstep
  cases SpscSystem.stepped_of_step hstep with
  | @produce call next hidle hbegin =>
    refine ⟨{ s with base := s.base.producerGoes call false s.base.queue next },
      Reaches.refl.tail (a := .produce call) hv ?_, rfl, h.head, h.tail⟩
    rw [step, hstep, Option.map_some]
  | @consume call next hidle hbegin =>
    refine ⟨{ s with base := s.base.consumerGoes call false s.base.queue next },
      Reaches.refl.tail (a := .consume call) hv ?_, rfl, h.head, h.tail⟩
    rw [step, hstep, Option.map_some]
  | stepProducer hpc =>
    obtain ⟨i, s', hs', hbase, h'⟩ := h.stepProducer hpc
    exact ⟨s', Reaches.refl.tail (a := .stepProducer i) trivial hs',
      Option.some.inj (hbase.symm.trans hstep), h'⟩
  | stepConsumer hpc =>
    obtain ⟨i, s', hs', hbase, h'⟩ := h.stepConsumer hpc
    exact ⟨s', Reaches.refl.tail (a := .stepConsumer i) trivial hs',
      Option.some.inj (hbase.symm.trans hstep), h'⟩

end WeakSystem

end Femtolog
