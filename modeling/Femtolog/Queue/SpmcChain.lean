import Femtolog.Queue.SpmcRun

/-!
# Queue/SpmcChain — whose turn it is to move the commit index

An admitted consumer waits until the commit index has come up to its ticket, so some other admitted
consumer must be there to move it.  That is so as long as the consumers check in the order of their
tickets and none of them takes a ticket back while a later one is out (`SpmcSystem.chain_unbroken`).
Otherwise the rewind of a refused consumer leaves a gap that nobody is ever given, and whoever holds
a later ticket waits for ever (`SpmcSystem.chain_broken`).
-/

namespace Femtolog

open SpmcQueue

variable {ι : Type} [DecidableEq ι]

/-- The consumer has passed its check and has not committed. -/
def SpmcConsumerPc.admitted : SpmcConsumerPc → Bool
  | .copy _ _ _ _ => true
  | _ => false

/-- The consumer is admitted after the step. -/
def Next.admitted : Next SpmcConsumerPc Reply → Bool
  | .goto pc => pc.admitted
  | .ret _ => false

namespace SpmcSystem

/-- Consumer `i` has passed its check and has not committed. -/
def admitted (s : SpmcSystem ι) (i : ι) : Bool :=
  match s.consumers i with
  | some (_, pc) => pc.admitted
  | none => false

/-! ## Steps in turn -/

/-- A step at `pc` of consumer `i` is in turn: it makes its check only when every consumer with an
earlier ticket has been admitted, and takes its ticket back only when no later one is out. -/
def PcInTurn (s : SpmcSystem ι) (i : ι) : SpmcConsumerPc → Prop
  | .loadTail _ _ => ∀ j ∈ s.positions.line,
      s.positions.ticket j < s.positions.ticket i → s.admitted j = true
  | .rewind r _ => s.positions.head = s.positions.ticket i + r.total.toNat
  | _ => True

/-- The step is in turn. -/
def InTurn (s : SpmcSystem ι) : SpmcAction ι → Prop
  | .stepConsumer i => ∀ inside ∈ s.consumers i, s.PcInTurn i inside.2
  | _ => True

instance (s : SpmcSystem ι) (i : ι) : DecidablePred (s.PcInTurn i)
  | .loadTail _ _ => inferInstanceAs (Decidable (∀ j ∈ s.positions.line,
      s.positions.ticket j < s.positions.ticket i → s.admitted j = true))
  | .rewind r _ =>
    inferInstanceAs (Decidable (s.positions.head = s.positions.ticket i + r.total.toNat))
  | .claim _ | .copy _ _ _ _ => inferInstanceAs (Decidable True)
  | .peekLoadCommit _ | .peekLoadTail _ _ | .peekCopy _ _ => inferInstanceAs (Decidable True)

instance (s : SpmcSystem ι) : DecidablePred s.InTurn
  | .stepConsumer i => inferInstanceAs (Decidable (∀ inside ∈ s.consumers i, _))
  | .produce _ | .consume _ _ | .stepProducer => inferInstanceAs (Decidable True)

/-! ## The chain -/

/-- **The chain of tickets**: the claims tile the positions from the commit position to the head,
the admitted ones come first, and what lies behind the commit position was delivered. -/
structure Chain (s : SpmcSystem ι) : Prop where
  tiled : Tiled s.positions.ticket s.size s.positions.commit s.positions.line s.positions.head
  first : ∀ i ∈ s.positions.line, ∀ j ∈ s.positions.line,
    s.positions.ticket j < s.positions.ticket i → s.admitted i = true → s.admitted j = true
  covered : ∀ p < s.positions.commit, ∃ d ∈ s.delivered, d.ticket ≤ p ∧ p < d.ticket + d.size

section Moves

variable {s : SpmcSystem ι} {i j : ι} {call : Call} {q : SpmcQueue} {p : Positions ι} {k : ℕ}

theorem admitted_of_ne (next : Next SpmcConsumerPc Reply) (hj : j ≠ i) :
    (s.consumerGoes i call q p next).admitted j = s.admitted j := by
  simp [admitted, consumerGoes, Function.update_of_ne hj]

theorem admitted_self (next : Next SpmcConsumerPc Reply) :
    (s.consumerGoes i call q p next).admitted i = next.admitted := by
  cases next <;> simp [admitted, consumerGoes, Next.inside, Next.admitted]

omit [DecidableEq ι] in
theorem admitted_of_inside {pc : SpmcConsumerPc} (hpc : s.consumers i = some (call, pc)) :
    s.admitted i = pc.admitted := by
  rw [admitted, hpc]

/-- What was delivered stays delivered. -/
theorem delivered_goes (next : Next SpmcConsumerPc Reply) {d : Delivery} (hd : d ∈ s.delivered) :
    d ∈ (s.consumerGoes i call q p next).delivered := by
  rw [delivered, consumerGoes, List.filterMap_append]
  exact List.mem_append_left _ hd

omit [DecidableEq ι] in
/-- The producer is not in the chain. -/
theorem Chain.producer (h : Chain s) (next : Next SpmcProducerPc Reply) :
    Chain (s.producerGoes call q next) := by
  refine ⟨h.tiled, h.first, fun p hp => ?_⟩
  obtain ⟨d, hd, hrange⟩ := h.covered p hp
  refine ⟨d, ?_, hrange⟩
  rw [delivered, producerGoes, List.filterMap_append]
  exact List.mem_append_left _ hd

/-- **A move that leaves the positions.**  Who is admitted by it has only admitted consumers before
it. -/
theorem Chain.stays (h : Chain s) {next : Next SpmcConsumerPc Reply}
    (hself : i ∈ s.positions.line → next.Holds)
    (hsize : i ∈ s.positions.line → s.size i = call.asked)
    (hnew : next.admitted = true → ∀ j ∈ s.positions.line,
      s.positions.ticket j < s.positions.ticket i → s.admitted j = true)
    (hold : s.admitted i = true → next.admitted = true) :
    Chain (s.consumerGoes i call q s.positions next) := by
  refine ⟨along_of_stays h.tiled hself hsize, ?_, fun p hp => ?_⟩
  · intro x hx y hy hlt hadm
    by_cases hxi : x = i
    · subst hxi
      have hyx : y ≠ x := by
        rintro rfl
        exact lt_irrefl _ hlt
      rw [admitted_self] at hadm
      rw [admitted_of_ne next hyx]
      exact hnew hadm y hy hlt
    · rw [admitted_of_ne next hxi] at hadm
      have hearlier := h.first x hx y hy hlt hadm
      by_cases hyi : y = i
      · subst hyi
        rw [admitted_self]
        exact hold hearlier
      · rwa [admitted_of_ne next hyi]
  · obtain ⟨d, hd, hrange⟩ := h.covered p hp
    exact ⟨d, delivered_goes next hd, hrange⟩

/-- Consumers that are still in line after consumer `i` has left it are as they were. -/
theorem Chain.first_erase (h : Chain s) (hnodup : s.positions.line.Nodup)
    (next : Next SpmcConsumerPc Reply) :
    ∀ x ∈ s.positions.line.erase i, ∀ y ∈ s.positions.line.erase i,
      s.positions.ticket y < s.positions.ticket x →
      (s.consumerGoes i call q p next).admitted x = true →
      (s.consumerGoes i call q p next).admitted y = true := by
  intro x hx y hy hlt hadm
  have hxi : x ≠ i := (List.Nodup.mem_erase_iff hnodup).mp hx |>.1
  have hyi : y ≠ i := (List.Nodup.mem_erase_iff hnodup).mp hy |>.1
  rw [admitted_of_ne next hxi] at hadm
  rw [admitted_of_ne next hyi]
  exact h.first x (List.mem_of_mem_erase hx) y (List.mem_of_mem_erase hy) hlt hadm

end Moves

/-- Nobody is admitted by starting a call. -/
theorem admitted_of_begin {q : SpmcQueue} {call : Call} {next : Next SpmcConsumerPc Reply}
    (hbegin : q.beginConsumer call = some next) : next.admitted = false := by
  have hdequeue (hmap : (checkDequeue q.buffer.isSome call).map
      (Next.ofCheck SpmcConsumerPc.claim) = some next) : next.admitted = false := by
    obtain ⟨x, _, rfl⟩ := Option.map_eq_some_iff.mp hmap
    cases x <;> rfl
  cases call with
  | peekBytes n =>
    obtain rfl := Option.some.inj hbegin
    split_ifs <;> rfl
  | _ => exact hdequeue hbegin

section Steps

variable {s s' : SpmcSystem ι} {i : ι} {call : Call} {k : ℕ} {a : SpmcAction ι}

omit [DecidableEq ι] in
/-- A consumer that checks in turn has its ticket in the stream. -/
theorem Chain.inStream (h : Chain s) (hinv : Inv k s) (hturn : s.InTurn a) : s.InStream a := by
  cases a with
  | produce _ | consume _ _ | stepProducer => trivial
  | stepConsumer i =>
  rintro ⟨call, pc⟩ (hpc : s.consumers i = some (call, pc))
  cases pc with
  | claim _ | rewind _ _ | copy _ _ _ _ | peekLoadCommit _ | peekLoadTail _ _ | peekCopy _ _ =>
    trivial
  | loadTail r ticket =>
  have hmem : i ∈ s.positions.line := (hinv.mem_line i).mpr ((holds_iff hpc).mpr trivial)
  refine .inl ?_
  rcases h.tiled.start_eq hmem with hfirst | ⟨j, hj, hend⟩
  · exact hfirst.trans_le hinv.named.commit_le
  · -- the consumer before it is admitted, so the bytes up to this ticket are in the stream
    have hpos := hinv.size_pos hj
    have hadm : s.admitted j = true := hturn _ hpc j hj (by omega)
    have hat := hinv.consumer j
    rw [admitted] at hadm
    cases hcj : s.consumers j with
    | none =>
      rw [hcj] at hadm
      cases hadm
    | some inside =>
      rw [hcj] at hadm hat
      cases hat with
      | copy _ _ hdata _ =>
        have hsize := size_of_inside hcj
        omega
      | claim _ _ | loadTail _ _ | rewind _ _ | peekLoadCommit | peekLoadTail | peekCopy =>
        cases hadm

/-- A ticket taken at the head goes on with the chain. -/
theorem Chain.claims (h : Chain s) (hinv : Inv k s) {r : DequeueRequest}
    (hpc : s.consumers i = some (call, .claim r)) (hr : r.Takes call.asked) :
    Chain (s.consumerGoes i call { s.queue with headIdx := s.queue.headIdx + r.total }
      (s.positions.after i s.queue (.claim r)) (.goto (.loadTail r s.queue.headIdx))) := by
  have hfree : i ∉ s.positions.line := fun hmem =>
    (holds_iff hpc).mp ((hinv.mem_line i).mp hmem)
  have htotal : r.total.toNat = call.asked := hr.toNat_total
  have hticket (j : ι) (hj : j ≠ i) :
      (s.positions.after i s.queue (.claim r)).ticket j = s.positions.ticket j :=
    s.positions.ticket_claim_of_ne hj _ r
  have hself := s.positions.ticket_claim_self i s.queue r
  have hne {j : ι} (hj : j ∈ s.positions.line) : j ≠ i := fun heq => hfree (heq ▸ hj)
  refine ⟨?_, ?_, fun p hp => ?_⟩
  · have hline : Tiled _ (s.consumerGoes i call
        { s.queue with headIdx := s.queue.headIdx + r.total }
        (s.positions.after i s.queue (.claim r))
        (.goto (.loadTail r s.queue.headIdx))).size _ _ _ :=
      along_of_free h.tiled hfree hticket _
    have hsnoc := hline.snoc hself.symm
    rwa [size_of_goto, ← htotal] at hsnoc
  · intro x hx y hy hlt hadm
    have hxi : x ≠ i := by
      rintro rfl
      rw [admitted_self] at hadm
      cases hadm
    have hx' : x ∈ s.positions.line :=
      (List.mem_append.mp hx).resolve_right fun hx => hxi (List.mem_singleton.mp hx)
    change Positions.ticket _ y < Positions.ticket _ x at hlt
    rw [consumerGoes, hticket x hxi] at hlt
    rcases List.mem_append.mp hy with hy | hy
    · rw [hticket y (hne hy)] at hlt
      rw [admitted_of_ne _ hxi] at hadm
      rw [admitted_of_ne _ (hne hy)]
      exact h.first x hx' y hy hlt hadm
    · -- the new ticket is behind all others
      obtain rfl := List.mem_singleton.mp hy
      rw [hself] at hlt
      have hend := h.tiled.end_le hx'
      omega
  · obtain ⟨d, hd, hrange⟩ := h.covered p hp
    exact ⟨d, delivered_goes _ hd, hrange⟩

/-- The last ticket given back shortens the chain. -/
theorem Chain.rewinds (h : Chain s) (hinv : Inv k s) {r : DequeueRequest} {ticket : Size}
    (hpc : s.consumers i = some (call, .rewind r ticket)) (hr : r.Takes call.asked)
    (hlast : s.positions.head = s.positions.ticket i + r.total.toNat) :
    Chain (s.consumerGoes i call { s.queue with headIdx := s.queue.headIdx - r.total }
      (s.positions.after i s.queue (.rewind r ticket)) (.ret (.status .kUnderflow []))) := by
  have hmem : i ∈ s.positions.line := (hinv.mem_line i).mpr ((holds_iff hpc).mpr trivial)
  have htotal : r.total.toNat = call.asked := hr.toNat_total
  have hsize : s.size i = call.asked := size_of_inside hpc
  refine ⟨?_, h.first_erase hinv.nodup _, fun p hp => ?_⟩
  · have hline := h.tiled.eraseLast hmem (fun j hj => hinv.size_pos hj)
      (by rw [hlast, hsize, htotal])
    have hhead : s.positions.head - r.total.toNat = s.positions.ticket i := by omega
    rw [← hhead] at hline
    exact along_of_free (q := s.queue) hline hinv.nodup.not_mem_erase (fun _ _ => rfl) _
  · obtain ⟨d, hd, hrange⟩ := h.covered p hp
    exact ⟨d, delivered_goes _ hd, hrange⟩

/-- The first ticket committed moves the chain on, and its positions are delivered. -/
theorem Chain.commits (h : Chain s) (hinv : Inv k s) {r : DequeueRequest} {out : List Byte}
    (hpc : s.consumers i
      = some (call, .copy r (BitVec.ofNat 64 (s.positions.ticket i)) [] out))
    (hcall : call.IsDequeue) (hr : r.Takes call.asked)
    (hstart : s.positions.ticket i = s.positions.commit)
    (hturn : s.queue.commitIdx = BitVec.ofNat 64 (s.positions.ticket i)) :
    Chain (s.consumerGoes i call
      { s.queue with commitIdx := BitVec.ofNat 64 (s.positions.ticket i) + r.total }
      (s.positions.after i s.queue (.copy r (BitVec.ofNat 64 (s.positions.ticket i)) [] out))
      (.ret (.status .kOk out))) := by
  have hmem : i ∈ s.positions.line := (hinv.mem_line i).mpr ((holds_iff hpc).mpr trivial)
  have htotal : r.total.toNat = call.asked := hr.toNat_total
  have hsize : s.size i = call.asked := size_of_inside hpc
  rw [Positions.after, if_pos hturn]
  refine ⟨?_, h.first_erase hinv.nodup _, fun p hp => ?_⟩
  · have hline := h.tiled.serve hmem (fun j hj => hinv.size_pos hj) hstart
    rw [hsize, ← htotal] at hline
    exact along_of_free (q := s.queue) hline hinv.nodup.not_mem_erase (fun _ _ => rfl) _
  · by_cases hold : p < s.positions.commit
    · obtain ⟨d, hd, hrange⟩ := h.covered p hold
      exact ⟨d, delivered_goes _ hd, hrange⟩
    · refine ⟨⟨s.positions.ticket i, call.asked, out⟩, ?_, by dsimp only; omega, ?_⟩
      · rw [delivered, consumerGoes, List.filterMap_append]
        refine List.mem_append_right _ ?_
        simp [Next.receipts, delivery_of_isDequeue hcall]
      · change p < s.positions.commit + r.total.toNat at hp
        dsimp only
        omega

/-- **A consumer's steps in turn keep the chain.** -/
theorem Chain.stepConsumer (h : Chain s) (hinv : Inv k s) {pc : SpmcConsumerPc}
    (hpc : s.consumers i = some (call, pc)) (hturn : s.PcInTurn i pc) :
    Chain (s.consumerGoes i call (s.queue.stepConsumer pc).1 (s.positions.after i s.queue pc)
      (s.queue.stepConsumer pc).2) := by
  have hat := hinv.consumer i
  rw [hpc] at hat
  have hsize : i ∈ s.positions.line → s.size i = call.asked := fun _ => size_of_inside hpc
  have hholds : i ∈ s.positions.line → pc.Holds := fun hmem =>
    (holds_iff hpc).mp ((hinv.mem_line i).mp hmem)
  have hadm := admitted_of_inside hpc
  have hrefused {next : Next SpmcConsumerPc Reply} (hnext : next.admitted = false)
      (hnow : s.admitted i = false) (hself : i ∈ s.positions.line → next.Holds) :
      Chain (s.consumerGoes i call s.queue s.positions next) :=
    h.stays hself hsize (fun hyes => by rw [hnext] at hyes; cases hyes)
      fun hyes => by rw [hnow] at hyes; cases hyes
  cases hat with
  | @claim call r hcall hr => exact h.claims hinv hpc hr
  | @loadTail call r hcall hr =>
    rw [SpmcQueue.stepConsumer]
    by_cases hunder : s.queue.tailIdx - BitVec.ofNat 64 (s.positions.ticket i) < r.total
    · rw [if_pos hunder]
      exact hrefused rfl hadm hholds
    · rw [if_neg hunder]
      exact h.stays hholds hsize (fun _ => hturn) fun hyes => by rw [hadm] at hyes; cases hyes
  | @rewind call r hcall hr => exact h.rewinds hinv hpc hr hturn
  | @copy call r segs out hcall hr hdata hread =>
    have hmem : i ∈ s.positions.line :=
      (hinv.mem_line i).mpr ((holds_iff hpc).mpr trivial)
    have hstays {next : Next SpmcConsumerPc Reply} (hnext : next.admitted = true)
        (hself : i ∈ s.positions.line → next.Holds) :
        Chain (s.consumerGoes i call s.queue s.positions next) :=
      h.stays hself hsize (fun _ j hj hlt => h.first i hmem j hj hlt hadm) fun _ => hnext
    cases segs with
    | nil =>
      by_cases hcas : s.queue.commitIdx = BitVec.ofNat 64 (s.positions.ticket i)
      · have hstart := hinv.ticket_eq_commit hmem (by omega) hcas
        have hnext := h.commits hinv hpc hcall hr hstart hcas
        rwa [SpmcQueue.stepConsumer, if_pos hcas]
      · rw [SpmcQueue.stepConsumer, Positions.after, if_neg hcas, if_neg hcas]
        exact hstays rfl hholds
    | cons seg segs => exact hstays rfl hholds
  | peekLoadCommit => exact hrefused rfl hadm hholds
  | @peekLoadTail n commit =>
    rw [SpmcQueue.stepConsumer]
    by_cases hunder : s.queue.tailIdx - commit < n
    · rw [if_pos hunder]
      exact hrefused rfl hadm hholds
    · rw [if_neg hunder]
      exact hrefused rfl hadm hholds
  | @peekCopy n segs out =>
    cases segs with
    | nil => exact hrefused rfl hadm hholds
    | cons seg segs => exact hrefused rfl hadm hholds

/-- **Every step in turn keeps the chain.** -/
theorem Chain.step (h : Chain s) (hinv : Inv k s) (hturn : s.InTurn a)
    (hstep : s.step a = some s') :
    Chain s' := by
  cases stepped_of_step hstep with
  | produce _ _ | stepProducer _ => exact h.producer _
  | @consume i call next hidle hbegin =>
    have hfree : i ∉ s.positions.line := fun hmem => by
      obtain ⟨call, pc, hpc, _⟩ := (hinv.mem_line i).mp hmem
      rw [hidle] at hpc
      cases hpc
    have hnew := admitted_of_begin hbegin
    refine h.stays (fun hmem => absurd hmem hfree) (fun hmem => absurd hmem hfree) ?_ ?_
    · intro hyes
      rw [hnew] at hyes
      cases hyes
    · intro hyes
      rw [admitted, hidle] at hyes
      cases hyes
  | stepConsumer hpc => exact h.stepConsumer hinv hpc (hturn _ hpc)

end Steps

/-! ## The commit chain -/

/-- **The commit chain is unbroken**: while an admitted consumer waits for its turn, another
admitted one holds the ticket the commit index stands at; and every position below the head was
delivered or is in the range of an outstanding ticket. -/
structure ChainUnbroken (s : SpmcSystem ι) : Prop where
  turn : ∀ {i call r ticket out}, s.consumers i = some (call, .copy r ticket [] out) →
    s.queue.commitIdx ≠ ticket →
      ∃ j, j ≠ i ∧ ∃ call r segs out,
        s.consumers j = some (call, .copy r s.queue.commitIdx segs out)
  no_gap : ∀ p < s.positions.head, (∃ d ∈ s.delivered, d.ticket ≤ p ∧ p < d.ticket + d.size)
    ∨ ∃ i, s.Holds i ∧ s.positions.ticket i ≤ p ∧ p < s.positions.ticket i + s.size i

section Unbroken

variable {s : SpmcSystem ι} {k : ℕ}

omit [DecidableEq ι] in
/-- The chain passes the turn on. -/
theorem Chain.unbroken (h : Chain s) (hinv : Inv k s) : s.ChainUnbroken := by
  refine ⟨fun {i call r ticket out} hpc hwait => ?_, fun p hp => ?_⟩
  · have hmem : i ∈ s.positions.line := (hinv.mem_line i).mpr ((holds_iff hpc).mpr trivial)
    have hat := hinv.consumer i
    rw [hpc] at hat
    obtain ⟨j, hj, hfirst⟩ := h.tiled.exists_first hmem
    have hlt : s.positions.ticket j < s.positions.ticket i := by
      have hle := hinv.lined.le_start hmem
      refine lt_of_le_of_ne (hfirst.trans_le hle) fun heq => hwait ?_
      cases hat with
      | copy _ _ _ _ => rw [hinv.named.commit_eq, ← hfirst, heq]
    have hadm := h.first i hmem j hj hlt (admitted_of_inside hpc)
    have hatj := hinv.consumer j
    rw [admitted] at hadm
    cases hcj : s.consumers j with
    | none =>
      rw [hcj] at hadm
      cases hadm
    | some inside =>
      rw [hcj] at hadm hatj
      cases hatj with
      | @copy call' r' segs' out' _ _ _ _ =>
        refine ⟨j, fun heq => by rw [heq] at hlt; exact lt_irrefl _ hlt, call', r', segs', out', ?_⟩
        rw [hcj, hinv.named.commit_eq, hfirst]
      | claim _ _ | loadTail _ _ | rewind _ _ | peekLoadCommit | peekLoadTail | peekCopy =>
        cases hadm
  · by_cases hold : p < s.positions.commit
    · exact .inl (h.covered p hold)
    · obtain ⟨i, hi, hrange⟩ := h.tiled.cover (Nat.le_of_not_lt hold) hp
      exact .inr ⟨i, (hinv.mem_line i).mp hi, hrange⟩

/-- **In a run whose steps are in turn the commit chain is never broken.** -/
theorem chain_unbroken {mem : Allocator} {n : Size} {q : SpmcQueue}
    (hq : SpmcQueue.reserve mem n = some q) (hbuf : q.buffer.isSome)
    (hrun : Reaches SpmcSystem.step (fun s a => a.Valid ∧ s.InTurn a) (init q) s) :
    s.ChainUnbroken := by
  obtain ⟨k, hinit⟩ := inv_of_reserve (ι := ι) hq hbuf
  have hchain : Chain (init q : SpmcSystem ι) := ⟨rfl, by simp [init], by simp [init]⟩
  have h : Inv k s ∧ Chain s := hrun.invariant (I := fun s => Inv k s ∧ Chain s)
    ⟨hinit, hchain⟩ fun h hg hstep =>
      ⟨h.1.step hg.1 (h.2.inStream h.1 hg.2) hstep, h.2.step h.1 hg.2 hstep⟩
  exact h.2.unbroken h.1

/-- Consumer `true` waits for a first consumer, whose ticket is out and admitted too. -/
theorem chain_unbroken_eight : ∃ q s, SpmcQueue.reserve .zeroed 8#64 = some q
    ∧ execute SpmcSystem.step (fun s a => decide (a.Valid ∧ s.InTurn a))
        (init q : SpmcSystem Bool)
        [.produce (.enqueueBytes [1, 2, 3, 4, 5, 6, 7, 8]),
          .stepProducer, .stepProducer, .stepProducer, .stepProducer,
          .consume false (.dequeueBytes 4#64), .consume true (.dequeueBytes 4#64),
          .stepConsumer false, .stepConsumer true, .stepConsumer false, .stepConsumer true,
          .stepConsumer true, .stepConsumer true]
      = some s
    ∧ s.ChainUnbroken := by
  obtain ⟨s, hs⟩ : ∃ s, execute SpmcSystem.step (fun s a => decide (a.Valid ∧ s.InTurn a))
      (init { buffer := some (List.replicate 72 0), capacity := 8#64, mask := 7#64 } :
        SpmcSystem Bool)
      [.produce (.enqueueBytes [1, 2, 3, 4, 5, 6, 7, 8]),
        .stepProducer, .stepProducer, .stepProducer, .stepProducer,
        .consume false (.dequeueBytes 4#64), .consume true (.dequeueBytes 4#64),
        .stepConsumer false, .stepConsumer true, .stepConsumer false, .stepConsumer true,
        .stepConsumer true, .stepConsumer true]
      = some s := Option.isSome_iff_exists.mp rfl
  have hq : SpmcQueue.reserve .zeroed 8#64
      = some { buffer := some (List.replicate 72 0), capacity := 8#64, mask := 7#64 } := rfl
  exact ⟨_, s, hq, hs, chain_unbroken hq rfl (Reaches.of_execute of_decide_eq_true hs)⟩

/-- The first consumer finds the queue empty; before it takes its ticket back eight bytes are
enqueued and the second one is admitted behind it.  The first four positions are then nobody's, and
the second consumer's turn never comes. -/
theorem chain_broken : ∃ q s, SpmcQueue.reserve .zeroed 8#64 = some q
    ∧ execute SpmcSystem.step (fun _ a => decide a.Valid) (init q : SpmcSystem Bool)
        [.consume false (.dequeueBytes 4#64), .stepConsumer false, .stepConsumer false,
          .produce (.enqueueBytes [1, 2, 3, 4, 5, 6, 7, 8]),
          .stepProducer, .stepProducer, .stepProducer, .stepProducer,
          .consume true (.dequeueBytes 4#64), .stepConsumer true, .stepConsumer true,
          .stepConsumer true, .stepConsumer false]
      = some s
    ∧ ¬ s.ChainUnbroken := by
  obtain ⟨s, hs, hwaits, hidle, hcommit⟩ : ∃ s, execute SpmcSystem.step (fun _ a => decide a.Valid)
      (init { buffer := some (List.replicate 72 0), capacity := 8#64, mask := 7#64 } :
        SpmcSystem Bool)
      [.consume false (.dequeueBytes 4#64), .stepConsumer false, .stepConsumer false,
        .produce (.enqueueBytes [1, 2, 3, 4, 5, 6, 7, 8]),
        .stepProducer, .stepProducer, .stepProducer, .stepProducer,
        .consume true (.dequeueBytes 4#64), .stepConsumer true, .stepConsumer true,
        .stepConsumer true, .stepConsumer false]
      = some s
      ∧ s.consumers true
        = some (.dequeueBytes 4#64, .copy ⟨4#64, [4#64]⟩ 4#64 [] [5, 6, 7, 8])
      ∧ s.consumers false = none ∧ s.queue.commitIdx = 0#64 := by
    refine ⟨_, rfl, rfl, rfl, rfl⟩
  refine ⟨_, s, rfl, hs, fun h => ?_⟩
  obtain ⟨j, hj, call, r, segs, out, hpc⟩ := h.turn hwaits (by rw [hcommit]; decide)
  cases j with
  | false =>
    rw [hidle] at hpc
    cases hpc
  | true => exact hj rfl

end Unbroken

end SpmcSystem

end Femtolog
