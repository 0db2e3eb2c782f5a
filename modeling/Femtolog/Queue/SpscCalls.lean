import Femtolog.Queue.SpscRun

/-!
# Queue/SpscCalls — a call on `SpscQueue`, step by step

A thread that uses the queue takes the steps of its call, while the other thread takes its own, and
goes on with the reply.  The bytes in the queue change when a call returns, and only then: as the
stream's answer to the call has it (`Holds.consumes`, `Holds.produces`).
-/

namespace Femtolog

namespace SpscSystem

variable {s s' : SpscSystem} {k : ℕ} {contents : List Byte} {call : Call}

/-! ## The steps of a call -/

/-- The start of a call of the consumer, or the next step of the one it is in. -/
def consumes (s : SpscSystem) (call : Call) : Option SpscSystem :=
  match s.consumer with
  | .idle => s.step (.consume call)
  | .inside _ _ _ => s.step .stepConsumer

/-- The start of a call of the producer, or the next step of the one it is in. -/
def produces (s : SpscSystem) (call : Call) : Option SpscSystem :=
  match s.producer with
  | .idle => s.step (.produce call)
  | .inside _ _ _ => s.step .stepProducer

/-- The reply of the call that has returned last. -/
def lastReply (s : SpscSystem) : Option Reply := s.returned.getLast?.map Return.reply

theorem lastReply_snoc {returned : List (Return Call Reply)} {r : Return Call Reply}
    (h : s.returned = returned ++ [r]) : s.lastReply = some r.reply := by
  rw [lastReply, h, List.getLast?_concat]
  rfl

/-! ## The bytes of the queue -/

/-- **The queue has the bytes `contents`**, which an enqueue under way will add to, and its threads
are right about it. -/
def Holds (k : ℕ) (contents : List Byte) (s : SpscSystem) : Prop :=
  ∃ stream H, Inv k stream H s ∧ contents = stream.drop H

/-- Where a step of a call leads to: the thread is inside it still, and the bytes in the queue are
what they were; or the call has returned as a stream answers. -/
inductive Answered {Pc : Type} (k : ℕ) (contents : List Byte) (call : Call)
    (reply : Option Reply) : Thread Call Pc → List Byte → Prop
  | inside {pc : Pc} {touched : Bool} :
    Answered k contents call reply (.inside call pc touched) contents
  | returned {r : Reply} {contents' : List Byte} (hreply : reply = some r)
      (hanswer : Stream.answer (2 ^ k) contents call = (r, contents')) :
    Answered k contents call reply .idle contents'

/-- The history tells the bytes. -/
theorem Inv.answered {Pc : Type} {stream stream' : List Byte} {H H' : ℕ} (h : Inv k stream H s)
    (h' : Inv k stream' H' s') {next : Next Pc Reply} {touched : Bool}
    (hreturned : s'.returned = s.returned ++ next.returned call touched) :
    Answered k (stream.drop H) call s'.lastReply (next.thread call touched) (stream'.drop H') := by
  have hexplained := h'.explained
  rw [history, hreturned, List.map_append] at hexplained
  cases next with
  | goto pc =>
    rw [Next.returned, List.map_nil, List.append_nil] at hexplained
    rw [← h.explained.unique hexplained]
    exact .inside
  | ret reply =>
    obtain ⟨_, hbefore, hanswer⟩ := Explains.of_snoc hexplained
    obtain rfl := h.explained.unique hbefore
    exact .returned (lastReply_snoc hreturned) (Option.some.inj hanswer)

/-- **A step of a call of the consumer.** -/
theorem Holds.consumes (h : Holds k contents s) (hv : call.Valid) (hin : s.consumer.In call)
    (hs : s.consumes call = some s') :
    ∃ contents', Holds k contents' s' ∧ s'.producer = s.producer ∧
      Answered k contents call s'.lastReply s'.consumer contents' := by
  obtain ⟨stream, H, hinv, rfl⟩ := h
  rw [SpscSystem.consumes] at hs
  cases hc : s.consumer with
  | idle =>
    rw [hc] at hs
    obtain ⟨stream', H', hinv'⟩ := hinv.step (a := .consume call) hv hs
    cases stepped_of_step hs with
    | consume _ _ => exact ⟨_, ⟨_, _, hinv', rfl⟩, rfl, hinv.answered hinv' rfl⟩
  | inside call' pc touched =>
    rw [hc] at hs hin
    obtain rfl : call' = call := hin
    obtain ⟨stream', H', hinv'⟩ := hinv.step (a := .stepConsumer) trivial hs
    cases stepped_of_step hs with
    | stepConsumer hpc =>
      obtain ⟨rfl, rfl, rfl⟩ := Thread.inside.inj (hc.symm.trans hpc)
      exact ⟨_, ⟨_, _, hinv', rfl⟩, rfl, hinv.answered hinv' rfl⟩

/-- **A step of a call of the producer.** -/
theorem Holds.produces (h : Holds k contents s) (hv : call.Valid) (hin : s.producer.In call)
    (hs : s.produces call = some s') :
    ∃ contents', Holds k contents' s' ∧ s'.consumer = s.consumer ∧
      Answered k contents call s'.lastReply s'.producer contents' := by
  obtain ⟨stream, H, hinv, rfl⟩ := h
  rw [SpscSystem.produces] at hs
  cases hp : s.producer with
  | idle =>
    rw [hp] at hs
    obtain ⟨stream', H', hinv'⟩ := hinv.step (a := .produce call) hv hs
    cases stepped_of_step hs with
    | produce _ _ => exact ⟨_, ⟨_, _, hinv', rfl⟩, rfl, hinv.answered hinv' rfl⟩
  | inside call' pc touched =>
    rw [hp] at hs hin
    obtain rfl : call' = call := hin
    obtain ⟨stream', H', hinv'⟩ := hinv.step (a := .stepProducer) trivial hs
    cases stepped_of_step hs with
    | stepProducer hpc =>
      obtain ⟨rfl, rfl, rfl⟩ := Thread.inside.inj (hp.symm.trans hpc)
      exact ⟨_, ⟨_, _, hinv', rfl⟩, rfl, hinv.answered hinv' rfl⟩

/-- A dequeue or a peek can always take its next step. -/
theorem exists_consumes (s : SpscSystem) (hcall : call.IsDequeue ∨ ∃ n, call = .peekBytes n) :
    ∃ s', s.consumes call = some s' := by
  rw [SpscSystem.consumes]
  cases hc : s.consumer with
  | idle =>
    obtain ⟨next, hbegin, -⟩ := s.queue.finishes_dequeue hcall
    simp only [SpscSystem.step, hc, hbegin, Option.map_some]
    exact ⟨_, rfl⟩
  | inside call' pc touched =>
    simp only [SpscSystem.step, hc]
    exact ⟨_, rfl⟩

/-- An enqueue can always take its next step. -/
theorem exists_produces (s : SpscSystem) (hcall : call.IsEnqueue) :
    ∃ s', s.produces call = some s' := by
  rw [SpscSystem.produces]
  cases hp : s.producer with
  | idle =>
    obtain ⟨next, hbegin, -⟩ := s.queue.finishes_enqueue hcall
    simp only [SpscSystem.step, hp, hbegin, Option.map_some]
    exact ⟨_, rfl⟩
  | inside call' pc touched =>
    simp only [SpscSystem.step, hp]
    exact ⟨_, rfl⟩

end SpscSystem

end Femtolog
