import Femtolog.Queue.Requests

/-!
# Queue/Spmc — `SpmcQueue`, one call at a time

A consumer takes a ticket by adding to the head before it knows whether the bytes are there, gives
it back when they are not, and after copying waits until the commit index has come up to its ticket.
Taken one at a time the head and the commit index agree between calls, no wait is ever entered, and
the calls answer as a bounded FIFO stream (`call_spec`).
-/

namespace Femtolog

/-- The data members of `SpmcQueue` its functions read.  `buffer` is `none` where `buffer_` is
null. -/
structure SpmcQueue where
  buffer : Option (List Byte) := none
  capacity : Size := 0#64
  mask : Size := 0#64
  tailIdx : Size := 0#64
  headIdx : Size := 0#64
  commitIdx : Size := 0#64
  deriving DecidableEq

namespace SpmcQueue

/-! ## The code -/

/-- `reserve`.  A failed allocation leaves the queue uninitialized; `none` is the undefined shift of
`nextPowerOf2`. -/
def reserve (mem : Allocator) (capacityBytes : Size) : Option SpmcQueue :=
  (nextPowerOf2 capacityBytes).map fun capacity =>
    match mem.alloc (capacity + kCacheSize).toNat with
    | none => {}
    | some newBuffer => { buffer := some newBuffer, capacity := capacity, mask := capacity - 1#64 }

/-- `enqueue_bytes` and `enqueue_bulk` from the index loads on. -/
def enqueueSized (q : SpmcQueue) (buffer : List Byte) (total : Size) (sizes : List Size)
    (data : List Byte) : QueueStatus × SpmcQueue :=
  if q.capacity - (q.tailIdx - q.commitIdx) < total then (.kOverflow, q)
  else
    (.kOk,
      { q with
        buffer := some (writeSegments buffer (bulkSegments q.mask q.tailIdx sizes) data)
        tailIdx := q.tailIdx + total })

/-- `enqueue_bytes`. -/
def enqueueBytes (q : SpmcQueue) (data : List Byte) : QueueStatus × SpmcQueue :=
  match q.buffer with
  | none => (.kUninitialized, q)
  | some buffer =>
    if sizeWord data = 0#64 then (.kSizeIsZero, q)
    else q.enqueueSized buffer (sizeWord data) [sizeWord data] data

/-- `enqueue_bulk`. -/
def enqueueBulk (q : SpmcQueue) (pieces : List (List Byte)) : QueueStatus × SpmcQueue :=
  match q.buffer with
  | none => (.kUninitialized, q)
  | some buffer =>
    if pieces = [] then (.kSizeIsZero, q)
    else
      let sizes := pieces.map sizeWord
      if totalSize sizes = 0#64 then (.kSizeIsZero, q)
      else q.enqueueSized buffer (totalSize sizes) sizes pieces.flatten

/-- `dequeue_bytes` and `dequeue_bulk` from the ticket on.  `none` is the compare-exchange loop that
never succeeds, because the commit index is not the ticket and no other call moves it. -/
def dequeueSized (q : SpmcQueue) (buffer : List Byte) (total : Size) (sizes : List Size) :
    Option (QueueStatus × List Byte × SpmcQueue) :=
  let ticket := q.headIdx
  let q' := { q with headIdx := q.headIdx + total }
  if q'.tailIdx - ticket < total then
    some (.kUnderflow, [], { q' with headIdx := q'.headIdx - total })
  else
    let out := readSegments buffer (bulkSegments q.mask ticket sizes)
    if q'.commitIdx = ticket then some (.kOk, out, { q' with commitIdx := ticket + total })
    else none

/-- `dequeue_bytes`. -/
def dequeueBytes (q : SpmcQueue) (size : Size) : Option (QueueStatus × List Byte × SpmcQueue) :=
  match q.buffer with
  | none => some (.kUninitialized, [], q)
  | some buffer =>
    if size = 0#64 then some (.kSizeIsZero, [], q)
    else q.dequeueSized buffer size [size]

/-- `dequeue_bulk`. -/
def dequeueBulk (q : SpmcQueue) (sizes : List Size) :
    Option (QueueStatus × List Byte × SpmcQueue) :=
  match q.buffer with
  | none => some (.kUninitialized, [], q)
  | some buffer =>
    if sizes = [] then some (.kSizeIsZero, [], q)
    else if totalSize sizes = 0#64 then some (.kSizeIsZero, [], q)
    else q.dequeueSized buffer (totalSize sizes) sizes

/-- `peek_bytes`. -/
def peekBytes (q : SpmcQueue) (size : Size) : QueueStatus × List Byte :=
  match q.buffer with
  | none => (.kUninitialized, [])
  | some buffer =>
    if size = 0#64 then (.kSizeIsZero, [])
    else if q.tailIdx - q.commitIdx < size then (.kUnderflow, [])
    else (.kOk, readSegments buffer (segments q.mask q.commitIdx size))

/-- `empty`. -/
def empty (q : SpmcQueue) : Bool := q.headIdx == q.tailIdx

/-- `size`. -/
def size (q : SpmcQueue) : Size := q.tailIdx - q.headIdx

/-- `available_space`. -/
def availableSpace (q : SpmcQueue) : Size := q.capacity - q.size

/-- The reply to a dequeue, and the queue after it. -/
def ofDequeue (r : QueueStatus × List Byte × SpmcQueue) : Reply × SpmcQueue :=
  (.status r.1 r.2.1, r.2.2)

/-- The reply to one call, and the queue after it; `none` for a call that never returns. -/
def call (q : SpmcQueue) : Call → Option (Reply × SpmcQueue)
  | .enqueueBytes data => some (.status (q.enqueueBytes data).1 [], (q.enqueueBytes data).2)
  | .enqueueBulk pieces => some (.status (q.enqueueBulk pieces).1 [], (q.enqueueBulk pieces).2)
  | .dequeueBytes n => (q.dequeueBytes n).map ofDequeue
  | .dequeueBulk ns => (q.dequeueBulk ns).map ofDequeue
  | .peekBytes n => some (.status (q.peekBytes n).1 (q.peekBytes n).2, q)
  | .empty => some (.flag q.empty, q)
  | .size => some (.count q.size, q)
  | .availableSpace => some (.count q.availableSpace, q)

/-! ## Positions between calls -/

/-- **Between calls the head and the commit index name one position `H`**, and the tail names
`T`. -/
structure Settled (q : SpmcQueue) (k H T : ℕ) : Prop where
  k_lt : k < 64
  capacity_eq : q.capacity = BitVec.ofNat 64 (2 ^ k)
  mask_eq : q.mask = BitVec.ofNat 64 (2 ^ k) - 1#64
  tail_eq : q.tailIdx = BitVec.ofNat 64 T
  head_eq : q.headIdx = BitVec.ofNat 64 H
  commit_eq : q.commitIdx = BitVec.ofNat 64 H
  head_le : H ≤ T
  tail_le : T ≤ H + 2 ^ k

/-- **The queue contains the bytes `s`**: what is left of some stream after the head. -/
def Contains (q : SpmcQueue) (k : ℕ) (s : List Byte) : Prop :=
  ∃ stream H, q.Settled k H stream.length ∧ Keeps q.buffer k stream H ∧ s = stream.drop H

/-- **A successful `reserve` makes an empty queue of a power-of-two capacity.** -/
theorem settled_of_reserve {mem : Allocator} {n : Size} {q : SpmcQueue}
    (h : reserve mem n = some q) (hbuf : q.buffer.isSome) :
    ∃ k, q.capacity.toNat = 2 ^ k ∧ nextPowerOf2 n = some (BitVec.ofNat 64 (2 ^ k))
      ∧ q.Settled k 0 0 ∧ Keeps q.buffer k [] 0 := by
  obtain ⟨capacity, hcap, h⟩ := Option.map_eq_some_iff.mp h
  cases hmem : mem.alloc (capacity + kCacheSize).toNat with
  | none =>
    rw [hmem] at h
    subst h
    cases hbuf
  | some block =>
    rw [hmem] at h
    subst h
    obtain ⟨k, hk, rfl, hcapacity, hkeeps⟩ := exists_keeps_of_alloc hcap hmem
    refine ⟨k, hcapacity, hcap, ?_, hkeeps⟩
    exact
      { k_lt := hk
        capacity_eq := rfl
        mask_eq := rfl
        tail_eq := rfl
        head_eq := rfl
        commit_eq := rfl
        head_le := le_refl 0
        tail_le := Nat.zero_le _ }

/-! ## Calls one at a time -/

section Calls

variable {q : SpmcQueue} {k H : ℕ} {stream buffer data : List Byte}

/-- **The producer answers as the stream does.** -/
theorem enqueueSized_spec (hi : q.Settled k H stream.length) (hs : Keeps q.buffer k stream H)
    (hb : q.buffer = some buffer) {ns : List ℕ} (hsum : ns.sum = data.length) (hd : data ≠ [])
    (hlt : data.length < 2 ^ 64) :
    (q.enqueueSized buffer (BitVec.ofNat 64 data.length) (ns.map (BitVec.ofNat 64)) data).1
        = (Stream.enqueue (2 ^ k) (stream.drop H) data).1
      ∧ Contains
          (q.enqueueSized buffer (BitVec.ofNat 64 data.length) (ns.map (BitVec.ofNat 64)) data).2 k
          (Stream.enqueue (2 ^ k) (stream.drop H) data).2 := by
  obtain ⟨buffer', hb', hlen, hhold⟩ := id hs
  obtain rfl : buffer' = buffer := Option.some.inj (hb'.symm.trans hb)
  have hT := hi.tail_le
  have hH := hi.head_le
  have hocc : (stream.drop H).length = stream.length - H := List.length_drop
  have hcheck : q.capacity - (q.tailIdx - q.commitIdx) < BitVec.ofNat 64 data.length
      ↔ 2 ^ k < stream.length - H + data.length := by
    rw [hi.capacity_eq, hi.tail_eq, hi.commit_eq, lacks_room_iff hi.k_lt hH hT hlt]
  rw [enqueueSized]
  by_cases hover : q.capacity - (q.tailIdx - q.commitIdx) < BitVec.ofNat 64 data.length
  · have hfull := hcheck.mp hover
    rw [if_pos hover, Stream.enqueue_of_lt hd (by omega)]
    exact ⟨rfl, stream, H, hi, hs, rfl⟩
  · have hfits := hcheck.not.mp hover
    have hcov : Covers (2 ^ k) stream.length
        (bulkSegments q.mask q.tailIdx (ns.map (BitVec.ofNat 64))) data.length := by
      rw [← hsum, hi.tail_eq]
      exact covers_bulkSegments hi.k_lt hi.mask_eq _ (by omega)
    obtain ⟨hnew, hlen'⟩ := hhold.writeSegments rfl hcov hlen (by omega)
    rw [if_neg hover, Stream.enqueue_of_le hd (by omega)]
    refine ⟨rfl, stream ++ data, H, ?_, ⟨_, rfl, by omega, ?_⟩, ?_⟩
    · exact
        { hi with
          tail_eq := by rw [List.length_append, BitVec.ofNat_add, ← hi.tail_eq]
          head_le := by rw [List.length_append]; omega
          tail_le := by rw [List.length_append]; omega }
    · rwa [List.length_append]
    · rw [List.drop_append_of_le_length hi.head_le]

/-- **The consumer answers as the stream does**: its ticket is the commit index, and a ticket given
back restores the head. -/
theorem dequeueSized_spec (hi : q.Settled k H stream.length) (hs : Keeps q.buffer k stream H)
    (hb : q.buffer = some buffer) {ns : List ℕ} (hn : ns.sum ≠ 0) (hlt : ns.sum < 2 ^ 64) :
    ∃ r, q.dequeueSized buffer (BitVec.ofNat 64 ns.sum) (ns.map (BitVec.ofNat 64)) = some r
      ∧ (r.1, r.2.1) = Stream.peek (stream.drop H) ns.sum
      ∧ r.2.2.Contains k (Stream.rest (stream.drop H) ns.sum) := by
  obtain ⟨buffer', hb', hlen, hhold⟩ := id hs
  obtain rfl : buffer' = buffer := Option.some.inj (hb'.symm.trans hb)
  have hH := hi.head_le
  have hT := hi.tail_le
  have hocc : (stream.drop H).length = stream.length - H := List.length_drop
  have hcheck : q.tailIdx - q.headIdx < BitVec.ofNat 64 ns.sum ↔ stream.length - H < ns.sum := by
    rw [hi.tail_eq, hi.head_eq, lacks_data_iff hi.k_lt hH hT hlt]
  rw [dequeueSized]
  dsimp only
  by_cases hunder : q.tailIdx - q.headIdx < BitVec.ofNat 64 ns.sum
  · have hless := hcheck.mp hunder
    rw [if_pos hunder, Stream.peek_of_lt hn (by omega), Stream.rest_of_lt (by omega)]
    refine ⟨_, rfl, rfl, stream, H, ?_, hs, rfl⟩
    rw [BitVec.add_sub_cancel]
    exact hi
  · have hthere := hcheck.not.mp hunder
    have hread : readSegments buffer' (bulkSegments q.mask q.headIdx (ns.map (BitVec.ofNat 64)))
        = (stream.drop H).take ns.sum := by
      rw [hi.head_eq]
      exact readSegments_bulkSegments hi.k_lt hi.mask_eq hhold (by omega) (by omega)
    rw [if_neg hunder, if_pos (hi.commit_eq.trans hi.head_eq.symm),
      Stream.peek_of_le hn (by omega), Stream.rest_of_le (by omega)]
    refine ⟨_, rfl, Prod.ext rfl hread, stream, H + ns.sum, ?_,
      ⟨buffer', hb, hlen, hhold.mono (Nat.le_add_right _ _) (le_refl _)⟩, List.drop_drop⟩
    exact
      { hi with
        head_eq := by rw [BitVec.ofNat_add, ← hi.head_eq]
        commit_eq := by rw [BitVec.ofNat_add, ← hi.head_eq]
        head_le := by omega
        tail_le := by omega }

/-- **A peek answers as the stream does.** -/
theorem peekBytes_spec (hi : q.Settled k H stream.length) (hs : Keeps q.buffer k stream H)
    (n : Size) :
    q.peekBytes n = Stream.peek (stream.drop H) n.toNat := by
  obtain ⟨buffer, hb, hlen, hhold⟩ := hs
  have hT := hi.tail_le
  have hH := hi.head_le
  have hocc : (stream.drop H).length = stream.length - H := List.length_drop
  obtain ⟨m, hm, rfl⟩ : ∃ m, m < 2 ^ 64 ∧ n = BitVec.ofNat 64 m :=
    ⟨n.toNat, n.isLt, eq_ofNat_of_toNat_eq rfl⟩
  have hcheck : q.tailIdx - q.commitIdx < BitVec.ofNat 64 m ↔ stream.length - H < m := by
    rw [hi.tail_eq, hi.commit_eq, lacks_data_iff hi.k_lt hH hT hm]
  rw [toNat_ofNat_of_lt hm, peekBytes, hb]
  dsimp only
  rcases Nat.eq_zero_or_pos m with rfl | hpos
  · rw [if_pos rfl, Stream.peek_zero]
  rw [if_neg ((ofNat_eq_zero_iff hm).not.mpr hpos.ne')]
  by_cases hunder : q.tailIdx - q.commitIdx < BitVec.ofNat 64 m
  · have hless := hcheck.mp hunder
    rw [if_pos hunder, Stream.peek_of_lt (by omega) (by omega)]
  · have hthere := hcheck.not.mp hunder
    rw [if_neg hunder, Stream.peek_of_le (by omega) (by omega), hi.commit_eq,
      readSegments_segments hi.k_lt hi.mask_eq hhold (by omega) (by omega)]

end Calls

/-! A call of one run of bytes is the bulk call of one piece. -/

theorem enqueueBytes_eq (q : SpmcQueue) (data : List Byte) :
    q.enqueueBytes data = q.enqueueBulk [data] := by
  simp [enqueueBytes, enqueueBulk, totalSize]

theorem dequeueBytes_eq (q : SpmcQueue) (size : Size) :
    q.dequeueBytes size = q.dequeueBulk [size] := by
  simp [dequeueBytes, dequeueBulk, totalSize]

section Bulk

variable {q : SpmcQueue} {k H : ℕ} {stream : List Byte}

theorem enqueueBulk_spec (hi : q.Settled k H stream.length) (hs : Keeps q.buffer k stream H)
    (pieces : List (List Byte)) (hlt : pieces.flatten.length < 2 ^ 64) :
    (q.enqueueBulk pieces).1 = (Stream.enqueue (2 ^ k) (stream.drop H) pieces.flatten).1
      ∧ (q.enqueueBulk pieces).2.Contains k
          (Stream.enqueue (2 ^ k) (stream.drop H) pieces.flatten).2 := by
  obtain ⟨buffer, hb, hstore⟩ := id hs
  have hsame : q.Contains k (stream.drop H) := ⟨stream, H, hi, hs, rfl⟩
  have hzero := (ofNat_eq_zero_iff hlt).trans List.length_eq_zero_iff
  rw [enqueueBulk, hb]
  dsimp only
  rw [totalSize_sizeWord]
  by_cases hp : pieces = []
  · subst hp
    exact ⟨rfl, hsame⟩
  rw [if_neg hp]
  by_cases hd : pieces.flatten = []
  · rw [if_pos (hzero.mpr hd), hd, Stream.enqueue_nil]
    exact ⟨rfl, hsame⟩
  · rw [if_neg (hzero.not.mpr hd), map_sizeWord]
    exact enqueueSized_spec hi hs hb List.length_flatten.symm hd hlt

theorem dequeueBulk_spec (hi : q.Settled k H stream.length) (hs : Keeps q.buffer k stream H)
    (sizes : List Size) (hlt : (sizes.map BitVec.toNat).sum < 2 ^ 64) :
    ∃ r, q.dequeueBulk sizes = some r
      ∧ (r.1, r.2.1) = Stream.peek (stream.drop H) (sizes.map BitVec.toNat).sum
      ∧ r.2.2.Contains k (Stream.rest (stream.drop H) (sizes.map BitVec.toNat).sum) := by
  obtain ⟨buffer, hb, hstore⟩ := id hs
  have hsame : q.Contains k (stream.drop H) := ⟨stream, H, hi, hs, rfl⟩
  have hzero := ofNat_eq_zero_iff hlt
  rw [dequeueBulk, hb]
  dsimp only
  rw [totalSize_eq]
  by_cases hp : sizes = []
  · subst hp
    exact ⟨_, rfl, rfl, by simpa using hsame⟩
  rw [if_neg hp]
  by_cases hn : (sizes.map BitVec.toNat).sum = 0
  · rw [if_pos (hzero.mpr hn), hn, Stream.peek_zero, Stream.rest_zero]
    exact ⟨_, rfl, rfl, hsame⟩
  · have hspec := dequeueSized_spec hi hs hb hn hlt
    rw [map_ofNat_toNat] at hspec
    rw [if_neg (hzero.not.mpr hn)]
    exact hspec

end Bulk

/-- **Taken one at a time, every call returns, and answers as a stream of the queue's capacity.** -/
theorem call_spec {q : SpmcQueue} {k : ℕ} {s : List Byte} (h : q.Contains k s) {call : Call}
    (hv : call.Valid) :
    ∃ q', q.call call = some ((Stream.answer (2 ^ k) s call).1, q')
      ∧ q'.Contains k (Stream.answer (2 ^ k) s call).2 := by
  obtain ⟨stream, H, hi, hs, rfl⟩ := id h
  have hH := hi.head_le
  have hT := hi.tail_le
  have hpow : 2 ^ k < 2 ^ 64 := Nat.pow_lt_pow_right (by norm_num) hi.k_lt
  have hocc : (stream.drop H).length = stream.length - H := List.length_drop
  have hsize : q.size = BitVec.ofNat 64 (stream.drop H).length := by
    rw [size, hi.head_eq, hi.tail_eq, hocc]
    exact eq_ofNat_of_toNat_eq (toNat_ofNat_sub_ofNat hH (by omega))
  cases call with
  | enqueueBytes data =>
    have hspec := enqueueBulk_spec hi hs [data]
      (by rw [List.flatten_singleton]; exact hv)
    rw [← enqueueBytes_eq, List.flatten_singleton] at hspec
    exact ⟨_, congrArg some (Prod.ext (congrArg (Reply.status · []) hspec.1) rfl), hspec.2⟩
  | enqueueBulk pieces =>
    have hspec := enqueueBulk_spec hi hs pieces hv
    exact ⟨_, congrArg some (Prod.ext (congrArg (Reply.status · []) hspec.1) rfl), hspec.2⟩
  | dequeueBytes n =>
    obtain ⟨r, hr, hout, hcont⟩ := dequeueBulk_spec hi hs [n] (by simpa using n.isLt)
    rw [← dequeueBytes_eq] at hr
    rw [List.map_singleton, List.sum_singleton] at hout hcont
    refine ⟨r.2.2, ?_, hcont⟩
    rw [SpmcQueue.call, hr, Stream.answer, ← hout]
    rfl
  | dequeueBulk sizes =>
    obtain ⟨r, hr, hout, hcont⟩ := dequeueBulk_spec hi hs sizes hv
    refine ⟨r.2.2, ?_, hcont⟩
    rw [SpmcQueue.call, hr, Stream.answer]
    dsimp only
    rw [← hout]
    rfl
  | peekBytes n =>
    refine ⟨q, ?_, h⟩
    rw [SpmcQueue.call, Stream.answer, peekBytes_spec hi hs n]
  | empty =>
    refine ⟨q, congrArg some (Prod.ext (congrArg Reply.flag ?_) rfl), h⟩
    rw [empty, hi.head_eq, hi.tail_eq, Bool.eq_iff_iff, beq_iff_eq,
      List.isEmpty_iff_length_eq_zero, hocc]
    constructor
    · intro heq
      have := eq_of_ofNat_eq hH (by omega) heq
      omega
    · intro hz
      exact congrArg (BitVec.ofNat 64) (by omega)
  | size => exact ⟨q, congrArg some (Prod.ext (congrArg Reply.count hsize) rfl), h⟩
  | availableSpace =>
    refine ⟨q, congrArg some (Prod.ext (congrArg Reply.count ?_) rfl), h⟩
    rw [availableSpace, hsize, hi.capacity_eq]
    exact eq_ofNat_of_toNat_eq (toNat_ofNat_sub_ofNat (by omega) (by omega))

end SpmcQueue

end Femtolog
