import Femtolog.Queue.Requests

/-!
# Queue/Spsc — `SpscQueue`, one call at a time

The queue object with its two published indices and the private copies each side keeps: the
producer's snapshot of the head and the consumer's snapshot of the tail are refreshed only when they
do not suffice.  Taken one at a time the calls answer as a bounded FIFO stream (`call_spec`).
-/

namespace Femtolog

/-- The data members of `SpscQueue` its functions read.  `buffer` is `none` where `buffer_` is
null. -/
structure SpscQueue where
  buffer : Option (List Byte) := none
  capacity : Size := 0#64
  mask : Size := 0#64
  tailIdx : Size := 0#64
  tailCached : Size := 0#64
  headCachedSnapshot : Size := 0#64
  headIdx : Size := 0#64
  headCached : Size := 0#64
  tailCachedSnapshot : Size := 0#64
  deriving DecidableEq

namespace SpscQueue

/-! ## The code -/

/-- `reserve`.  A failed allocation leaves the queue uninitialized; `none` is the undefined shift of
`nextPowerOf2`. -/
def reserve (mem : Allocator) (capacityBytes : Size) : Option SpscQueue :=
  (nextPowerOf2 capacityBytes).map fun capacity =>
    match mem.alloc (capacity + kCacheSize).toNat with
    | none => {}
    | some newBuffer => { buffer := some newBuffer, capacity := capacity, mask := capacity - 1#64 }

/-- The end of a successful enqueue: the copies, then the new tail. -/
def publish (q : SpscQueue) (buffer : List Byte) (total : Size) (sizes : List Size)
    (data : List Byte) : SpscQueue :=
  { q with
    buffer := some (writeSegments buffer (bulkSegments q.mask q.tailIdx sizes) data)
    tailIdx := q.tailIdx + total
    tailCached := q.tailIdx + total }

/-- `enqueue_bytes` and `enqueue_bulk` from the index load on. -/
def enqueueSized (q : SpscQueue) (buffer : List Byte) (total : Size) (sizes : List Size)
    (data : List Byte) : QueueStatus × SpscQueue :=
  if q.capacity - (q.tailIdx - q.headCachedSnapshot) < total then
    let q' := { q with headCachedSnapshot := q.headIdx }
    if q.capacity - (q.tailIdx - q.headIdx) < total then (.kOverflow, q')
    else (.kOk, q'.publish buffer total sizes data)
  else (.kOk, q.publish buffer total sizes data)

/-- `enqueue_bytes`. -/
def enqueueBytes (q : SpscQueue) (data : List Byte) : QueueStatus × SpscQueue :=
  match q.buffer with
  | none => (.kUninitialized, q)
  | some buffer =>
    if sizeWord data = 0#64 then (.kSizeIsZero, q)
    else q.enqueueSized buffer (sizeWord data) [sizeWord data] data

/-- `enqueue_bulk`. -/
def enqueueBulk (q : SpscQueue) (pieces : List (List Byte)) : QueueStatus × SpscQueue :=
  match q.buffer with
  | none => (.kUninitialized, q)
  | some buffer =>
    if pieces = [] then (.kSizeIsZero, q)
    else
      let sizes := pieces.map sizeWord
      if totalSize sizes = 0#64 then (.kSizeIsZero, q)
      else q.enqueueSized buffer (totalSize sizes) sizes pieces.flatten

/-- The end of a successful dequeue: the copies, then the new head. -/
def consume (q : SpscQueue) (buffer : List Byte) (total : Size) (sizes : List Size) :
    List Byte × SpscQueue :=
  (readSegments buffer (bulkSegments q.mask q.headIdx sizes),
    { q with headIdx := q.headIdx + total, headCached := q.headIdx + total })

/-- `dequeue_bytes` and `dequeue_bulk` from the index load on. -/
def dequeueSized (q : SpscQueue) (buffer : List Byte) (total : Size) (sizes : List Size) :
    QueueStatus × List Byte × SpscQueue :=
  if q.tailCachedSnapshot - q.headIdx < total then
    let q' := { q with tailCachedSnapshot := q.tailIdx }
    if q.tailIdx - q.headIdx < total then (.kUnderflow, [], q')
    else (.kOk, q'.consume buffer total sizes)
  else (.kOk, q.consume buffer total sizes)

/-- `dequeue_bytes`. -/
def dequeueBytes (q : SpscQueue) (size : Size) : QueueStatus × List Byte × SpscQueue :=
  match q.buffer with
  | none => (.kUninitialized, [], q)
  | some buffer =>
    if size = 0#64 then (.kSizeIsZero, [], q)
    else q.dequeueSized buffer size [size]

/-- `dequeue_bulk`. -/
def dequeueBulk (q : SpscQueue) (sizes : List Size) : QueueStatus × List Byte × SpscQueue :=
  match q.buffer with
  | none => (.kUninitialized, [], q)
  | some buffer =>
    if sizes = [] then (.kSizeIsZero, [], q)
    else if totalSize sizes = 0#64 then (.kSizeIsZero, [], q)
    else q.dequeueSized buffer (totalSize sizes) sizes

/-- `peek_bytes`. -/
def peekBytes (q : SpscQueue) (size : Size) : QueueStatus × List Byte :=
  match q.buffer with
  | none => (.kUninitialized, [])
  | some buffer =>
    if size = 0#64 then (.kSizeIsZero, [])
    else if size > q.tailIdx - q.headIdx then (.kUnderflow, [])
    else (.kOk, readSegments buffer (segments q.mask q.headIdx size))

/-- `empty`. -/
def empty (q : SpscQueue) : Bool := q.headCached == q.tailIdx

/-- `size`. -/
def size (q : SpscQueue) : Size := q.tailIdx - q.headCached

/-- `available_space`. -/
def availableSpace (q : SpscQueue) : Size := q.capacity - q.size

/-- The reply to one call, and the queue after it. -/
def call (q : SpscQueue) : Call → Reply × SpscQueue
  | .enqueueBytes data => (.status (q.enqueueBytes data).1 [], (q.enqueueBytes data).2)
  | .enqueueBulk pieces => (.status (q.enqueueBulk pieces).1 [], (q.enqueueBulk pieces).2)
  | .dequeueBytes n => (.status (q.dequeueBytes n).1 (q.dequeueBytes n).2.1, (q.dequeueBytes n).2.2)
  | .dequeueBulk ns => (.status (q.dequeueBulk ns).1 (q.dequeueBulk ns).2.1, (q.dequeueBulk ns).2.2)
  | .peekBytes n => (.status (q.peekBytes n).1 (q.peekBytes n).2, q)
  | .empty => (.flag q.empty, q)
  | .size => (.count q.size, q)
  | .availableSpace => (.count q.availableSpace, q)

/-! ## Positions

`stream` is everything ever enqueued; `H` and `T` are the positions the head and the tail name.  The
snapshots name older positions, from before the last moves of the other side. -/

/-- The producer's snapshot of the head leaves room up to position `T`. -/
def HeadSnapshot (q : SpscQueue) (k H T : ℕ) : Prop :=
  ∃ p, p ≤ H ∧ T ≤ p + 2 ^ k ∧ q.headCachedSnapshot = BitVec.ofNat 64 p

/-- The consumer's snapshot of the tail covers position `H`. -/
def TailSnapshot (q : SpscQueue) (H T : ℕ) : Prop :=
  ∃ p, H ≤ p ∧ p ≤ T ∧ q.tailCachedSnapshot = BitVec.ofNat 64 p

/-- **The indices of a queue of capacity `2^k` name the positions `H` and `T`.** -/
structure Indexed (q : SpscQueue) (k H T : ℕ) : Prop where
  k_lt : k < 64
  capacity_eq : q.capacity = BitVec.ofNat 64 (2 ^ k)
  mask_eq : q.mask = BitVec.ofNat 64 (2 ^ k) - 1#64
  tail_eq : q.tailIdx = BitVec.ofNat 64 T
  head_eq : q.headIdx = BitVec.ofNat 64 H
  headCached_eq : q.headCached = q.headIdx
  head_le : H ≤ T
  headSnapshot : q.HeadSnapshot k H T
  tailSnapshot : q.TailSnapshot H T

/-- **The queue contains the bytes `s`**: what is left of some stream after the head. -/
def Contains (q : SpscQueue) (k : ℕ) (s : List Byte) : Prop :=
  ∃ stream H, q.Indexed k H stream.length ∧ Keeps q.buffer k stream H ∧ s = stream.drop H

theorem HeadSnapshot.mono {q : SpscQueue} {k H H' T T' : ℕ} (h : q.HeadSnapshot k H T)
    (hH : H ≤ H') (hT : T' ≤ T) : q.HeadSnapshot k H' T' := by
  obtain ⟨p, h1, h2, h3⟩ := h
  exact ⟨p, by omega, by omega, h3⟩

theorem TailSnapshot.mono {q : SpscQueue} {H H' T T' : ℕ} (h : q.TailSnapshot H T)
    (hH : H' ≤ H) (hT : T ≤ T') : q.TailSnapshot H' T' := by
  obtain ⟨p, h1, h2, h3⟩ := h
  exact ⟨p, by omega, by omega, h3⟩

namespace Indexed

variable {q : SpscQueue} {k H T n : ℕ}

/-- At most one capacity of bytes is in the queue. -/
theorem tail_le (h : q.Indexed k H T) : T ≤ H + 2 ^ k := by
  obtain ⟨p, h1, h2, _⟩ := h.headSnapshot
  omega

/-- The producer's re-read of the head. -/
theorem refreshHead (h : q.Indexed k H T) :
    Indexed { q with headCachedSnapshot := q.headIdx } k H T :=
  { h with headSnapshot := ⟨H, le_refl H, h.tail_le, h.head_eq⟩ }

/-- The consumer's re-read of the tail. -/
theorem refreshTail (h : q.Indexed k H T) :
    Indexed { q with tailCachedSnapshot := q.tailIdx } k H T :=
  { h with tailSnapshot := ⟨T, h.head_le, le_refl T, h.tail_eq⟩ }

/-- The store of the tail after an enqueue of `n` bytes the snapshot leaves room for. -/
theorem advanceTail (h : q.Indexed k H T) (hroom : q.HeadSnapshot k H (T + n))
    (buffer : Option (List Byte)) :
    Indexed { q with
      buffer := buffer
      tailIdx := BitVec.ofNat 64 T + BitVec.ofNat 64 n
      tailCached := BitVec.ofNat 64 T + BitVec.ofNat 64 n } k H (T + n) :=
  { h with
    tail_eq := (BitVec.ofNat_add T n).symm
    head_le := Nat.le_add_right_of_le h.head_le
    headSnapshot := hroom
    tailSnapshot := h.tailSnapshot.mono (le_refl H) (Nat.le_add_right T n) }

/-- The store of the head after a dequeue of `n` bytes the snapshot covers. -/
theorem advanceHead (h : q.Indexed k H T) (hdata : q.TailSnapshot (H + n) T) :
    Indexed { q with
      headIdx := BitVec.ofNat 64 H + BitVec.ofNat 64 n
      headCached := BitVec.ofNat 64 H + BitVec.ofNat 64 n } k (H + n) T :=
  { h with
    head_eq := (BitVec.ofNat_add H n).symm
    headCached_eq := rfl
    head_le := by
      obtain ⟨p, h1, h2, _⟩ := hdata
      omega
    headSnapshot := h.headSnapshot.mono (Nat.le_add_right H n) (le_refl T)
    tailSnapshot := hdata }

/-- **The check against the snapshot grants the room.** -/
theorem room_of_snapshot (h : q.Indexed k H T) (hn : n < 2 ^ 64)
    (hcheck : ¬ q.capacity - (q.tailIdx - q.headCachedSnapshot) < BitVec.ofNat 64 n) :
    q.HeadSnapshot k H (T + n) := by
  obtain ⟨p, h1, h2, h3⟩ := h.headSnapshot
  rw [h.capacity_eq, h.tail_eq, h3,
    lacks_room_iff h.k_lt (h1.trans h.head_le) h2 hn] at hcheck
  have := h.head_le
  exact ⟨p, h1, by omega, h3⟩

/-- The check against the head itself compares with the free space. -/
theorem overflow_iff (h : q.Indexed k H T) (hn : n < 2 ^ 64) :
    q.capacity - (q.tailIdx - q.headIdx) < BitVec.ofNat 64 n ↔ 2 ^ k < T - H + n := by
  rw [h.capacity_eq, h.tail_eq, h.head_eq, lacks_room_iff h.k_lt h.head_le h.tail_le hn]

/-- **The check against the snapshot finds the data.** -/
theorem data_of_snapshot (h : q.Indexed k H T) (hn : n < 2 ^ 64)
    (hcheck : ¬ q.tailCachedSnapshot - q.headIdx < BitVec.ofNat 64 n) :
    q.TailSnapshot (H + n) T := by
  obtain ⟨p, h1, h2, h3⟩ := h.tailSnapshot
  have hle := h.tail_le
  rw [h3, h.head_eq, lacks_data_iff h.k_lt h1 (by omega) hn] at hcheck
  exact ⟨p, by omega, h2, h3⟩

/-- The check against the tail itself compares with the bytes published. -/
theorem underflow_iff (h : q.Indexed k H T) (hn : n < 2 ^ 64) :
    q.tailIdx - q.headIdx < BitVec.ofNat 64 n ↔ T - H < n := by
  rw [h.tail_eq, h.head_eq, lacks_data_iff h.k_lt h.head_le h.tail_le hn]

end Indexed

/-! ## Reserving -/

/-- **A successful `reserve` makes an empty queue of a power-of-two capacity.** -/
theorem indexed_of_reserve {mem : Allocator} {n : Size} {q : SpscQueue}
    (h : reserve mem n = some q) (hbuf : q.buffer.isSome) :
    ∃ k, q.capacity.toNat = 2 ^ k ∧ nextPowerOf2 n = some (BitVec.ofNat 64 (2 ^ k))
      ∧ q.Indexed k 0 0 ∧ Keeps q.buffer k [] 0 := by
  obtain ⟨capacity, hcap, h⟩ := Option.map_eq_some_iff.mp h
  cases hmem : mem.alloc (capacity + kCacheSize).toNat with
  | none =>
    rw [hmem] at h
    subst h
    cases hbuf
  | some block =>
    rw [hmem] at h
    subst h
    obtain ⟨k, hk, rfl, hcapacity, hkeeps⟩ := exists_keeps_of_alloc hcap hmem
    refine ⟨k, hcapacity, hcap, ?_, hkeeps⟩
    exact
      { k_lt := hk
        capacity_eq := rfl
        mask_eq := rfl
        tail_eq := rfl
        head_eq := rfl
        headCached_eq := rfl
        head_le := le_refl 0
        headSnapshot := ⟨0, le_refl 0, Nat.zero_le _, rfl⟩
        tailSnapshot := ⟨0, le_refl 0, le_refl 0, rfl⟩ }

/-! ## Calls one at a time -/

section Calls

variable {q : SpscQueue} {k H : ℕ} {stream buffer data : List Byte}

/-- **A successful enqueue appends its bytes.** -/
theorem publish_contains (hi : q.Indexed k H stream.length)
    (hlen : 2 ^ k ≤ buffer.length) (hhold : Holds (2 ^ k) buffer stream H stream.length)
    {ns : List ℕ} (hsum : ns.sum = data.length)
    (hroom : q.HeadSnapshot k H (stream.length + data.length)) :
    (q.publish buffer (BitVec.ofNat 64 data.length) (ns.map (BitVec.ofNat 64)) data).Contains k
      (stream.drop H ++ data) := by
  obtain ⟨p, hp, hT, _⟩ := id hroom
  have hcov : Covers (2 ^ k) stream.length
      (bulkSegments q.mask q.tailIdx (ns.map (BitVec.ofNat 64))) data.length := by
    rw [← hsum, hi.tail_eq]
    exact covers_bulkSegments hi.k_lt hi.mask_eq _ (by have := hi.head_le; omega)
  obtain ⟨hnew, hlen'⟩ := hhold.writeSegments rfl hcov hlen (by omega)
  refine ⟨stream ++ data, H, ?_, ⟨_, rfl, by omega, ?_⟩, ?_⟩
  · have := hi.advanceTail hroom
      (some (writeSegments buffer (bulkSegments q.mask q.tailIdx (ns.map (BitVec.ofNat 64))) data))
    rwa [← hi.tail_eq, ← List.length_append] at this
  · rwa [List.length_append]
  · rw [List.drop_append_of_le_length hi.head_le]

/-- **The producer answers as the stream does.** -/
theorem enqueueSized_spec (hi : q.Indexed k H stream.length) (hs : Keeps q.buffer k stream H)
    (hb : q.buffer = some buffer) {ns : List ℕ} (hsum : ns.sum = data.length) (hd : data ≠ [])
    (hlt : data.length < 2 ^ 64) :
    (q.enqueueSized buffer (BitVec.ofNat 64 data.length) (ns.map (BitVec.ofNat 64)) data).1
        = (Stream.enqueue (2 ^ k) (stream.drop H) data).1
      ∧ Contains
          (q.enqueueSized buffer (BitVec.ofNat 64 data.length) (ns.map (BitVec.ofNat 64)) data).2 k
          (Stream.enqueue (2 ^ k) (stream.drop H) data).2 := by
  obtain ⟨buffer', hb', hlen, hhold⟩ := hs
  obtain rfl : buffer' = buffer := Option.some.inj (hb'.symm.trans hb)
  have hT := hi.tail_le
  have hH := hi.head_le
  have hocc : (stream.drop H).length = stream.length - H := List.length_drop
  rw [enqueueSized]
  by_cases hsnap : q.capacity - (q.tailIdx - q.headCachedSnapshot) < BitVec.ofNat 64 data.length
  · rw [if_pos hsnap]
    by_cases hover : q.capacity - (q.tailIdx - q.headIdx) < BitVec.ofNat 64 data.length
    · have hfull := (hi.overflow_iff hlt).mp hover
      rw [if_pos hover, Stream.enqueue_of_lt hd (by omega)]
      exact ⟨rfl, stream, H, hi.refreshHead, ⟨buffer', hb, hlen, hhold⟩, rfl⟩
    · have hfits := (hi.overflow_iff hlt).not.mp hover
      rw [if_neg hover, Stream.enqueue_of_le hd (by omega)]
      exact ⟨rfl, publish_contains hi.refreshHead hlen hhold hsum
        ⟨H, le_refl H, by omega, hi.head_eq⟩⟩
  · have hroom := hi.room_of_snapshot hlt hsnap
    obtain ⟨p, hp, hpT, _⟩ := id hroom
    rw [if_neg hsnap, Stream.enqueue_of_le hd (by omega)]
    exact ⟨rfl, publish_contains hi hlen hhold hsum hroom⟩

/-- **A successful dequeue takes the next bytes.** -/
theorem consume_spec (hi : q.Indexed k H stream.length) (hb : q.buffer = some buffer)
    (hlen : 2 ^ k ≤ buffer.length) (hhold : Holds (2 ^ k) buffer stream H stream.length)
    (ns : List ℕ) (hdata : q.TailSnapshot (H + ns.sum) stream.length) :
    (q.consume buffer (BitVec.ofNat 64 ns.sum) (ns.map (BitVec.ofNat 64))).1
        = (stream.drop H).take ns.sum
      ∧ (q.consume buffer (BitVec.ofNat 64 ns.sum) (ns.map (BitVec.ofNat 64))).2.Contains k
          ((stream.drop H).drop ns.sum) := by
  obtain ⟨p, hp, hpT, _⟩ := id hdata
  have hT := hi.tail_le
  have hread : readSegments buffer (bulkSegments q.mask q.headIdx (ns.map (BitVec.ofNat 64)))
      = (stream.drop H).take ns.sum := by
    rw [hi.head_eq]
    exact readSegments_bulkSegments hi.k_lt hi.mask_eq hhold (by omega) (by omega)
  refine ⟨hread, stream, H + ns.sum, ?_,
    ⟨buffer, hb, hlen, hhold.mono (Nat.le_add_right _ _) (le_refl _)⟩, List.drop_drop⟩
  have := hi.advanceHead hdata
  rwa [← hi.head_eq] at this

/-- **The consumer answers as the stream does.** -/
theorem dequeueSized_spec (hi : q.Indexed k H stream.length) (hs : Keeps q.buffer k stream H)
    (hb : q.buffer = some buffer) {ns : List ℕ} (hn : ns.sum ≠ 0) (hlt : ns.sum < 2 ^ 64) :
    let r := q.dequeueSized buffer (BitVec.ofNat 64 ns.sum) (ns.map (BitVec.ofNat 64))
    (r.1, r.2.1) = Stream.peek (stream.drop H) ns.sum
      ∧ r.2.2.Contains k (Stream.rest (stream.drop H) ns.sum) := by
  obtain ⟨buffer', hb', hlen, hhold⟩ := hs
  obtain rfl : buffer' = buffer := Option.some.inj (hb'.symm.trans hb)
  have hH := hi.head_le
  have hocc : (stream.drop H).length = stream.length - H := List.length_drop
  rw [dequeueSized]
  by_cases hsnap : q.tailCachedSnapshot - q.headIdx < BitVec.ofNat 64 ns.sum
  · rw [if_pos hsnap]
    by_cases hunder : q.tailIdx - q.headIdx < BitVec.ofNat 64 ns.sum
    · have hless := (hi.underflow_iff hlt).mp hunder
      rw [if_pos hunder, Stream.peek_of_lt hn (by omega), Stream.rest_of_lt (by omega)]
      exact ⟨rfl, stream, H, hi.refreshTail, ⟨buffer', hb, hlen, hhold⟩, rfl⟩
    · have hthere := (hi.underflow_iff hlt).not.mp hunder
      rw [if_neg hunder, Stream.peek_of_le hn (by omega), Stream.rest_of_le (by omega)]
      obtain ⟨hout, hcont⟩ := consume_spec hi.refreshTail hb hlen hhold ns
        ⟨stream.length, by omega, le_refl _, hi.tail_eq⟩
      exact ⟨Prod.ext rfl hout, hcont⟩
  · have hdata := hi.data_of_snapshot hlt hsnap
    obtain ⟨p, hp, hpT, _⟩ := id hdata
    rw [if_neg hsnap, Stream.peek_of_le hn (by omega), Stream.rest_of_le (by omega)]
    obtain ⟨hout, hcont⟩ := consume_spec hi hb hlen hhold ns hdata
    exact ⟨Prod.ext rfl hout, hcont⟩

/-- **A peek answers as the stream does.** -/
theorem peekBytes_spec (hi : q.Indexed k H stream.length) (hs : Keeps q.buffer k stream H)
    (n : Size) :
    q.peekBytes n = Stream.peek (stream.drop H) n.toNat := by
  obtain ⟨buffer, hb, hlen, hhold⟩ := hs
  have hT := hi.tail_le
  have hH := hi.head_le
  have hocc : (stream.drop H).length = stream.length - H := List.length_drop
  obtain ⟨m, hm, rfl⟩ : ∃ m, m < 2 ^ 64 ∧ n = BitVec.ofNat 64 m :=
    ⟨n.toNat, n.isLt, eq_ofNat_of_toNat_eq rfl⟩
  rw [toNat_ofNat_of_lt hm, peekBytes, hb]
  dsimp only
  rcases Nat.eq_zero_or_pos m with rfl | hpos
  · rw [if_pos rfl, Stream.peek_zero]
  rw [if_neg fun h0 => hpos.ne' (by simpa [toNat_ofNat_of_lt hm] using congrArg BitVec.toNat h0)]
  by_cases hunder : q.tailIdx - q.headIdx < BitVec.ofNat 64 m
  · have hless := (hi.underflow_iff hm).mp hunder
    rw [if_pos hunder, Stream.peek_of_lt (by omega) (by omega)]
  · have hthere := (hi.underflow_iff hm).not.mp hunder
    rw [if_neg hunder, Stream.peek_of_le (by omega) (by omega), hi.head_eq,
      readSegments_segments hi.k_lt hi.mask_eq hhold (by omega) (by omega)]

end Calls

/-! A call of one run of bytes is the bulk call of one piece. -/

theorem enqueueBytes_eq (q : SpscQueue) (data : List Byte) :
    q.enqueueBytes data = q.enqueueBulk [data] := by
  simp [enqueueBytes, enqueueBulk, totalSize]

theorem dequeueBytes_eq (q : SpscQueue) (size : Size) :
    q.dequeueBytes size = q.dequeueBulk [size] := by
  simp [dequeueBytes, dequeueBulk, totalSize]

section Bulk

variable {q : SpscQueue} {k H : ℕ} {stream : List Byte}

theorem enqueueBulk_spec (hi : q.Indexed k H stream.length) (hs : Keeps q.buffer k stream H)
    (pieces : List (List Byte)) (hlt : pieces.flatten.length < 2 ^ 64) :
    (q.enqueueBulk pieces).1 = (Stream.enqueue (2 ^ k) (stream.drop H) pieces.flatten).1
      ∧ (q.enqueueBulk pieces).2.Contains k
          (Stream.enqueue (2 ^ k) (stream.drop H) pieces.flatten).2 := by
  obtain ⟨buffer, hb, hstore⟩ := id hs
  have hsame : q.Contains k (stream.drop H) := ⟨stream, H, hi, hs, rfl⟩
  have hzero := (ofNat_eq_zero_iff hlt).trans List.length_eq_zero_iff
  rw [enqueueBulk, hb]
  dsimp only
  rw [totalSize_sizeWord]
  by_cases hp : pieces = []
  · subst hp
    exact ⟨rfl, hsame⟩
  rw [if_neg hp]
  by_cases hd : pieces.flatten = []
  · rw [if_pos (hzero.mpr hd), hd, Stream.enqueue_nil]
    exact ⟨rfl, hsame⟩
  · rw [if_neg (hzero.not.mpr hd), map_sizeWord]
    exact enqueueSized_spec hi hs hb List.length_flatten.symm hd hlt

theorem dequeueBulk_spec (hi : q.Indexed k H stream.length) (hs : Keeps q.buffer k stream H)
    (sizes : List Size) (hlt : (sizes.map BitVec.toNat).sum < 2 ^ 64) :
    ((q.dequeueBulk sizes).1, (q.dequeueBulk sizes).2.1)
        = Stream.peek (stream.drop H) (sizes.map BitVec.toNat).sum
      ∧ (q.dequeueBulk sizes).2.2.Contains k
          (Stream.rest (stream.drop H) (sizes.map BitVec.toNat).sum) := by
  obtain ⟨buffer, hb, hstore⟩ := id hs
  have hsame : q.Contains k (stream.drop H) := ⟨stream, H, hi, hs, rfl⟩
  have hzero := ofNat_eq_zero_iff hlt
  rw [dequeueBulk, hb]
  dsimp only
  rw [totalSize_eq]
  by_cases hp : sizes = []
  · subst hp
    exact ⟨rfl, by simpa using hsame⟩
  rw [if_neg hp]
  by_cases hn : (sizes.map BitVec.toNat).sum = 0
  · rw [if_pos (hzero.mpr hn), hn, Stream.peek_zero, Stream.rest_zero]
    exact ⟨rfl, hsame⟩
  · have hspec := dequeueSized_spec hi hs hb hn hlt
    rw [map_ofNat_toNat] at hspec
    rw [if_neg (hzero.not.mpr hn)]
    exact hspec

end Bulk

/-- **Taken one at a time, the calls answer as a stream of the queue's capacity.** -/
theorem call_spec {q : SpscQueue} {k : ℕ} {s : List Byte} (h : q.Contains k s) {call : Call}
    (hv : call.Valid) :
    (q.call call).1 = (Stream.answer (2 ^ k) s call).1
      ∧ (q.call call).2.Contains k (Stream.answer (2 ^ k) s call).2 := by
  obtain ⟨stream, H, hi, hs, rfl⟩ := id h
  have hH := hi.head_le
  have hT := hi.tail_le
  have hocc : (stream.drop H).length = stream.length - H := List.length_drop
  have hsize : q.size = BitVec.ofNat 64 (stream.drop H).length := by
    have hpow : 2 ^ k < 2 ^ 64 := Nat.pow_lt_pow_right (by norm_num) hi.k_lt
    rw [size, hi.headCached_eq, hi.head_eq, hi.tail_eq, hocc]
    exact eq_ofNat_of_toNat_eq (toNat_ofNat_sub_ofNat hH (by omega))
  cases call with
  | enqueueBytes data =>
    have hspec := enqueueBulk_spec hi hs [data]
      (by rw [List.flatten_singleton]; exact hv)
    rw [← enqueueBytes_eq, List.flatten_singleton] at hspec
    exact ⟨congrArg (Reply.status · []) hspec.1, hspec.2⟩
  | enqueueBulk pieces =>
    have hspec := enqueueBulk_spec hi hs pieces hv
    exact ⟨congrArg (Reply.status · []) hspec.1, hspec.2⟩
  | dequeueBytes n =>
    have hspec := dequeueBulk_spec hi hs [n] (by simpa using n.isLt)
    rw [← dequeueBytes_eq, List.map_singleton, List.sum_singleton] at hspec
    exact ⟨congrArg (fun r : QueueStatus × List Byte => Reply.status r.1 r.2) hspec.1, hspec.2⟩
  | dequeueBulk sizes =>
    have hspec := dequeueBulk_spec hi hs sizes hv
    exact ⟨congrArg (fun r : QueueStatus × List Byte => Reply.status r.1 r.2) hspec.1, hspec.2⟩
  | peekBytes n =>
    exact ⟨congrArg (fun r : QueueStatus × List Byte => Reply.status r.1 r.2)
      (peekBytes_spec hi hs n), h⟩
  | empty =>
    refine ⟨congrArg Reply.flag ?_, h⟩
    have hpow : 2 ^ k < 2 ^ 64 := Nat.pow_lt_pow_right (by norm_num) hi.k_lt
    rw [empty, hi.headCached_eq, hi.head_eq, hi.tail_eq, Bool.eq_iff_iff, beq_iff_eq,
      List.isEmpty_iff_length_eq_zero, hocc]
    constructor
    · intro heq
      have := eq_of_ofNat_eq hH (by omega) heq
      omega
    · intro hz
      exact congrArg (BitVec.ofNat 64) (by omega)
  | size => exact ⟨congrArg Reply.count hsize, h⟩
  | availableSpace =>
    refine ⟨congrArg Reply.count ?_, h⟩
    have hpow : 2 ^ k < 2 ^ 64 := Nat.pow_lt_pow_right (by norm_num) hi.k_lt
    rw [availableSpace, hsize, hi.capacity_eq]
    exact eq_ofNat_of_toNat_eq (toNat_ofNat_sub_ofNat (by omega) (by omega))

/-! ## Capacity -/

theorem capacity_enqueueBytes (q : SpscQueue) (data : List Byte) :
    (q.enqueueBytes data).2.capacity = q.capacity := by
  rw [enqueueBytes]
  cases q.buffer with
  | none => rfl
  | some buffer =>
    dsimp only
    split_ifs
    · rfl
    · rw [enqueueSized]
      split_ifs <;> rfl

theorem capacity_dequeueBytes (q : SpscQueue) (size : Size) :
    (q.dequeueBytes size).2.2.capacity = q.capacity := by
  rw [dequeueBytes]
  cases q.buffer with
  | none => rfl
  | some buffer =>
    dsimp only
    split_ifs
    · rfl
    · rw [dequeueSized]
      split_ifs <;> rfl

/-! ## The bytes of a queue

What a caller who knows nothing of capacities sees. -/

/-- The queue has the bytes `s`; an uninitialized queue has none. -/
def HasBytes (q : SpscQueue) (s : List Byte) : Prop :=
  (∃ k, q.Contains k s) ∨ (q = {} ∧ s = [])

namespace HasBytes

variable {q : SpscQueue} {s : List Byte}

/-- **An enqueue appends its bytes, or leaves the queue as it was.** -/
theorem enqueueBytes (h : q.HasBytes s) {data : List Byte} (hlt : data.length < 2 ^ 64) :
    (q.enqueueBytes data).2.HasBytes
      (if (q.enqueueBytes data).1 = .kOk then s ++ data else s) := by
  rcases h with ⟨k, h⟩ | ⟨rfl, rfl⟩
  · have hvalid : Call.Valid (.enqueueBytes data) := hlt
    obtain ⟨hreply, hcontains⟩ := call_spec h hvalid
    have hstatus : (q.enqueueBytes data).1 = (Stream.enqueue (2 ^ k) s data).1 :=
      (Reply.status.inj hreply).1
    rw [hstatus, ← Stream.enqueue_snd]
    exact .inl ⟨k, hcontains⟩
  · exact .inr ⟨rfl, rfl⟩

/-- **A peek that succeeds returns the first bytes**; one that fails found fewer. -/
theorem peekBytes (h : q.HasBytes s) {n : Size} (hn : n ≠ 0#64) :
    ((q.peekBytes n).1 = .kOk → (q.peekBytes n).2 = s.take n.toNat ∧ n.toNat ≤ s.length) ∧
      ((q.peekBytes n).1 ≠ .kOk → s.length < n.toNat) := by
  have hpos : n.toNat ≠ 0 := fun h0 => hn (BitVec.eq_of_toNat_eq h0)
  rcases h with ⟨k, h⟩ | ⟨rfl, rfl⟩
  · have hvalid : Call.Valid (.peekBytes n) := trivial
    obtain ⟨hstatus, hout⟩ := Reply.status.inj (call_spec h hvalid).1
    rw [hstatus, hout]
    rcases Nat.lt_or_ge s.length n.toNat with hlt | hle
    · rw [Stream.peek_of_lt hpos hlt]
      exact ⟨nofun, fun _ => hlt⟩
    · rw [Stream.peek_of_le hpos hle]
      exact ⟨fun _ => ⟨rfl, hle⟩, fun hne => absurd rfl hne⟩
  · exact ⟨nofun, fun _ => Nat.pos_of_ne_zero hpos⟩

/-- **A dequeue takes the first bytes**, if they are there. -/
theorem dequeueBytes (h : q.HasBytes s) {n : Size} (hn : n ≠ 0#64) (hle : n.toNat ≤ s.length) :
    (q.dequeueBytes n).1 = .kOk ∧ (q.dequeueBytes n).2.1 = s.take n.toNat ∧
      (q.dequeueBytes n).2.2.HasBytes (s.drop n.toNat) := by
  have hpos : n.toNat ≠ 0 := fun h0 => hn (BitVec.eq_of_toNat_eq h0)
  rcases h with ⟨k, h⟩ | ⟨_, rfl⟩
  · have hvalid : Call.Valid (.dequeueBytes n) := trivial
    obtain ⟨hreply, hcontains⟩ := call_spec h hvalid
    obtain ⟨hstatus, hout⟩ := Reply.status.inj hreply
    rw [hstatus, hout, Stream.peek_of_le hpos hle]
    rw [← Stream.rest_of_le hle]
    exact ⟨rfl, rfl, .inl ⟨k, hcontains⟩⟩
  · exact absurd (Nat.le_zero.mp hle) hpos

/-- **`empty` and `size` tell** how many bytes there are. -/
theorem size_eq (h : q.HasBytes s) : q.size = BitVec.ofNat 64 s.length := by
  rcases h with ⟨k, h⟩ | ⟨rfl, rfl⟩
  · have hvalid : Call.Valid .size := trivial
    exact Reply.count.inj (call_spec h hvalid).1
  · rfl

/-- A queue holds fewer bytes than a size can count. -/
theorem length_lt (h : q.HasBytes s) : s.length < 2 ^ 64 := by
  rcases h with ⟨k, stream, H, hi, _, rfl⟩ | ⟨_, rfl⟩
  · have hT := hi.tail_le
    have hk : 2 ^ k < 2 ^ 64 := Nat.pow_lt_pow_right (by norm_num) hi.k_lt
    rw [List.length_drop]
    omega
  · exact Nat.two_pow_pos 64

/-- A queue holds at most its capacity. -/
theorem length_le (h : q.HasBytes s) : s.length ≤ q.capacity.toNat := by
  rcases h with ⟨k, stream, H, hi, _, rfl⟩ | ⟨_, rfl⟩
  · have hT := hi.tail_le
    have hk : 2 ^ k < 2 ^ 64 := Nat.pow_lt_pow_right (by norm_num) hi.k_lt
    rw [hi.capacity_eq, toNat_ofNat_of_lt hk, List.length_drop]
    exact Nat.sub_le_iff_le_add'.mpr hT
  · exact Nat.zero_le _

/-- An enqueue succeeds where the capacity leaves room. -/
theorem enqueueBytes_fst (h : q.HasBytes s) {data : List Byte} (hdata : data ≠ [])
    (hroom : s.length + data.length ≤ q.capacity.toNat) : (q.enqueueBytes data).1 = .kOk := by
  have hlt : data.length < 2 ^ 64 := by
    have := q.capacity.isLt
    omega
  rcases h with ⟨k, h⟩ | ⟨rfl, rfl⟩
  · have hcapacity : q.capacity.toNat = 2 ^ k := by
      obtain ⟨_, _, hi, _, _⟩ := id h
      rw [hi.capacity_eq, toNat_ofNat_of_lt (Nat.pow_lt_pow_right (by norm_num) hi.k_lt)]
    have hvalid : Call.Valid (.enqueueBytes data) := hlt
    have hstatus := (Reply.status.inj (call_spec h hvalid).1).1
    rw [hcapacity] at hroom
    rwa [Stream.enqueue_of_le hdata hroom] at hstatus
  · have hnone : data.length = 0 := by simpa using hroom
    exact absurd (List.length_eq_zero_iff.mp hnone) hdata

/-- **An enqueue succeeds exactly where the capacity leaves room.** -/
theorem enqueueBytes_fst_iff (h : q.HasBytes s) {data : List Byte} (hdata : data ≠ [])
    (hlt : data.length < 2 ^ 64) :
    (q.enqueueBytes data).1 = .kOk ↔ s.length + data.length ≤ q.capacity.toNat := by
  refine ⟨fun hok => ?_, h.enqueueBytes_fst hdata⟩
  have hbytes := h.enqueueBytes hlt
  rw [if_pos hok] at hbytes
  rw [← q.capacity_enqueueBytes data, ← List.length_append]
  exact hbytes.length_le

theorem empty_eq (h : q.HasBytes s) : q.empty = s.isEmpty := by
  rcases h with ⟨k, h⟩ | ⟨rfl, rfl⟩
  · have hvalid : Call.Valid .empty := trivial
    exact Reply.flag.inj (call_spec h hvalid).1
  · rfl

end HasBytes

/-- A reserved queue has no bytes. -/
theorem hasBytes_of_reserve {mem : Allocator} {n : Size} {q : SpscQueue}
    (h : reserve mem n = some q) : q.HasBytes [] := by
  cases hbuffer : q.buffer.isSome with
  | true =>
    obtain ⟨k, _, _, hi, hs⟩ := indexed_of_reserve h hbuffer
    exact .inl ⟨k, [], 0, hi, hs, rfl⟩
  | false =>
    obtain ⟨c, _, rfl⟩ := Option.map_eq_some_iff.mp h
    revert hbuffer
    cases mem.alloc (c + kCacheSize).toNat with
    | none => exact fun _ => .inr ⟨rfl, rfl⟩
    | some block => simp

end SpscQueue

end Femtolog
