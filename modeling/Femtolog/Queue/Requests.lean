import Femtolog.Queue.Stream

/-!
# Queue/Requests — what a call asks for, and its bytes on the way

Both queue classes begin a call alike: the checks of the arguments, none of which reads an index.
What passes them is a request.  Both also copy alike: the buffer keeps the stream from some position
on, and an enqueue between two `memcpy` calls has part of its bytes behind the end of the stream
(`Keeps`).
-/

namespace Femtolog

/-! ## Requests -/

/-- An enqueue whose arguments passed the checks. -/
structure EnqueueRequest where
  total : Size
  sizes : List Size
  data : List Byte

/-- A dequeue whose arguments passed the checks. -/
structure DequeueRequest where
  total : Size
  sizes : List Size

/-- The checks at the start of `enqueue_bytes` and `enqueue_bulk`; `ready` tells whether `buffer_`
is allocated. -/
def checkEnqueue (ready : Bool) : Call → Option (Except QueueStatus EnqueueRequest)
  | .enqueueBytes data =>
    some <|
      if ready = false then .error .kUninitialized
      else if sizeWord data = 0#64 then .error .kSizeIsZero
      else .ok ⟨sizeWord data, [sizeWord data], data⟩
  | .enqueueBulk pieces =>
    some <|
      if ready = false then .error .kUninitialized
      else if pieces = [] then .error .kSizeIsZero
      else
        let sizes := pieces.map sizeWord
        if totalSize sizes = 0#64 then .error .kSizeIsZero
        else .ok ⟨totalSize sizes, sizes, pieces.flatten⟩
  | _ => none

/-- The checks at the start of `dequeue_bytes` and `dequeue_bulk`. -/
def checkDequeue (ready : Bool) : Call → Option (Except QueueStatus DequeueRequest)
  | .dequeueBytes size =>
    some <|
      if ready = false then .error .kUninitialized
      else if size = 0#64 then .error .kSizeIsZero
      else .ok ⟨size, [size]⟩
  | .dequeueBulk sizes =>
    some <|
      if ready = false then .error .kUninitialized
      else if sizes = [] then .error .kSizeIsZero
      else if totalSize sizes = 0#64 then .error .kSizeIsZero
      else .ok ⟨totalSize sizes, sizes⟩
  | _ => none

/-- A call returns what its checks refuse it with, or goes on with its request. -/
def Next.ofCheck {R Pc : Type} (go : R → Pc) : Except QueueStatus R → Next Pc Reply
  | .error status => .ret (.status status [])
  | .ok r => .goto (go r)

theorem Next.eq_error_of_ofCheck {R Pc : Type} {go : R → Pc} {x : Except QueueStatus R}
    {reply : Reply} (h : Next.ofCheck go x = .ret reply) :
    ∃ status, x = .error status ∧ reply = .status status [] := by
  cases x with
  | error status => exact ⟨status, rfl, (Next.ret.inj h).symm⟩
  | ok r => cases h

/-- The number of bytes a dequeue or a peek asks for. -/
def Call.asked : Call → ℕ
  | .dequeueBytes n => n.toNat
  | .dequeueBulk ns => (ns.map BitVec.toNat).sum
  | .peekBytes n => n.toNat
  | _ => 0

/-- The calls that append to the stream. -/
def Call.IsEnqueue : Call → Prop
  | .enqueueBytes _ => True
  | .enqueueBulk _ => True
  | _ => False

/-- The calls that take from the stream. -/
def Call.IsDequeue : Call → Prop
  | .dequeueBytes _ => True
  | .dequeueBulk _ => True
  | _ => False

/-- **The request brings `data`**, under sizes that add up to its length. -/
structure EnqueueRequest.Brings (r : EnqueueRequest) (data : List Byte) : Prop where
  data_eq : r.data = data
  ne_nil : data ≠ []
  lt : data.length < 2 ^ 64
  total_eq : r.total = BitVec.ofNat 64 data.length
  sizes_eq : ∃ ns : List ℕ, r.sizes = ns.map (BitVec.ofNat 64) ∧ ns.sum = data.length

/-- **The request takes `n` bytes.** -/
structure DequeueRequest.Takes (r : DequeueRequest) (n : ℕ) : Prop where
  ne_zero : n ≠ 0
  lt : n < 2 ^ 64
  total_eq : r.total = BitVec.ofNat 64 n
  sizes_eq : ∃ ns : List ℕ, r.sizes = ns.map (BitVec.ofNat 64) ∧ ns.sum = n

section Covers

variable {k n : ℕ} {mask : Size} {data : List Byte}

theorem DequeueRequest.Takes.toNat_total {r : DequeueRequest} (hr : r.Takes n) :
    r.total.toNat = n := by
  rw [hr.total_eq, toNat_ofNat_of_lt hr.lt]

/-- The runs of an enqueue lay out its bytes. -/
theorem EnqueueRequest.Brings.covers {r : EnqueueRequest} (hr : r.Brings data) (hk : k < 64)
    (hmask : mask = BitVec.ofNat 64 (2 ^ k) - 1#64) (p : ℕ) (hle : data.length ≤ 2 ^ k) :
    Covers (2 ^ k) p (bulkSegments mask (BitVec.ofNat 64 p) r.sizes) data.length := by
  obtain ⟨ns, hsizes, hsum⟩ := hr.sizes_eq
  rw [hsizes, ← hsum]
  exact covers_bulkSegments hk hmask p (hsum.trans_le hle)

/-- The runs of a dequeue lay out what it takes. -/
theorem DequeueRequest.Takes.covers {r : DequeueRequest} (hr : r.Takes n) (hk : k < 64)
    (hmask : mask = BitVec.ofNat 64 (2 ^ k) - 1#64) (p : ℕ) (hle : n ≤ 2 ^ k) :
    Covers (2 ^ k) p (bulkSegments mask (BitVec.ofNat 64 p) r.sizes) n := by
  obtain ⟨ns, hsizes, hsum⟩ := hr.sizes_eq
  rw [hsizes, ← hsum]
  exact covers_bulkSegments hk hmask p (hsum.trans_le hle)

end Covers

section Checks

variable {call : Call}

theorem answer_of_isEnqueue (h : call.IsEnqueue) (c : ℕ) (s : List Byte) :
    Stream.answer c s call
      = (.status (Stream.enqueue c s call.data).1 [], (Stream.enqueue c s call.data).2) := by
  cases call with
  | enqueueBytes _ | enqueueBulk _ => rfl
  | _ => cases h

theorem answer_of_isDequeue (h : call.IsDequeue) (c : ℕ) (s : List Byte) :
    Stream.answer c s call
      = (.status (Stream.peek s call.asked).1 (Stream.peek s call.asked).2,
        Stream.rest s call.asked) := by
  cases call with
  | dequeueBytes _ | dequeueBulk _ => rfl
  | _ => cases h

theorem pushedBy_of_isEnqueue (h : call.IsEnqueue) (bytes : List Byte) :
    Stream.pushedBy (call, .status .kOk bytes) = call.data
      ∧ Stream.poppedBy (call, .status .kOk bytes) = [] := by
  cases call with
  | enqueueBytes _ | enqueueBulk _ => exact ⟨rfl, rfl⟩
  | _ => cases h

theorem poppedBy_of_isDequeue (h : call.IsDequeue) (bytes : List Byte) :
    Stream.pushedBy (call, .status .kOk bytes) = []
      ∧ Stream.poppedBy (call, .status .kOk bytes) = bytes := by
  cases call with
  | dequeueBytes _ | dequeueBulk _ => exact ⟨rfl, rfl⟩
  | _ => cases h

theorem data_nil_of_isDequeue (h : call.IsDequeue) : call.data = [] := by
  cases call with
  | dequeueBytes _ | dequeueBulk _ => rfl
  | _ => cases h

/-- An enqueue on an allocated queue is refused by the checks for having no bytes, and only then. -/
theorem checkEnqueue_spec {x : Except QueueStatus EnqueueRequest}
    (h : checkEnqueue true call = some x) (hv : call.Valid) :
    call.IsEnqueue
      ∧ ((x = .error .kSizeIsZero ∧ call.data = []) ∨ ∃ r, x = .ok r ∧ r.Brings call.data) := by
  cases call with
  | enqueueBytes data =>
    have hlt : data.length < 2 ^ 64 := hv
    have hzero := (ofNat_eq_zero_iff hlt).trans List.length_eq_zero_iff
    obtain rfl := Option.some.inj h
    refine ⟨trivial, ?_⟩
    rw [if_neg (by simp)]
    by_cases hd : data = []
    · exact .inl ⟨if_pos (hzero.mpr hd), hd⟩
    · refine .inr ⟨_, if_neg (hzero.not.mpr hd), rfl, hd, hlt, rfl, [data.length], rfl, ?_⟩
      exact List.sum_singleton
  | enqueueBulk pieces =>
    have hlt : pieces.flatten.length < 2 ^ 64 := hv
    have hzero := (ofNat_eq_zero_iff hlt).trans List.length_eq_zero_iff
    obtain rfl := Option.some.inj h
    refine ⟨trivial, ?_⟩
    rw [if_neg (by simp)]
    dsimp only
    rw [totalSize_sizeWord]
    by_cases hp : pieces = []
    · subst hp
      exact .inl ⟨rfl, rfl⟩
    rw [if_neg hp]
    by_cases hd : pieces.flatten = []
    · exact .inl ⟨if_pos (hzero.mpr hd), hd⟩
    · exact .inr ⟨_, if_neg (hzero.not.mpr hd), rfl, hd, hlt, rfl, _, map_sizeWord pieces,
        List.length_flatten.symm⟩
  | _ => cases h

/-- A dequeue on an allocated queue is refused by the checks for asking for no bytes, and only
then. -/
theorem checkDequeue_spec {x : Except QueueStatus DequeueRequest}
    (h : checkDequeue true call = some x) (hv : call.Valid) :
    call.IsDequeue
      ∧ ((x = .error .kSizeIsZero ∧ call.asked = 0) ∨ ∃ r, x = .ok r ∧ r.Takes call.asked) := by
  cases call with
  | dequeueBytes size =>
    obtain rfl := Option.some.inj h
    refine ⟨trivial, ?_⟩
    rw [if_neg (by simp)]
    by_cases hn : size = 0#64
    · subst hn
      exact .inl ⟨rfl, rfl⟩
    · refine .inr ⟨_, if_neg hn, fun h0 => hn (BitVec.eq_of_toNat_eq h0), size.isLt,
        eq_ofNat_of_toNat_eq rfl, [size.toNat], ?_, List.sum_singleton⟩
      exact congrArg (fun n => [n]) (eq_ofNat_of_toNat_eq rfl)
  | dequeueBulk sizes =>
    have hlt : (sizes.map BitVec.toNat).sum < 2 ^ 64 := hv
    have hzero := ofNat_eq_zero_iff hlt
    obtain rfl := Option.some.inj h
    refine ⟨trivial, ?_⟩
    rw [if_neg (by simp), totalSize_eq]
    by_cases hp : sizes = []
    · subst hp
      exact .inl ⟨rfl, rfl⟩
    rw [if_neg hp]
    by_cases hn : (sizes.map BitVec.toNat).sum = 0
    · exact .inl ⟨if_pos (hzero.mpr hn), hn⟩
    · exact .inr ⟨_, if_neg (hzero.not.mpr hn), hn, hlt, rfl, _, (map_ofNat_toNat sizes).symm, rfl⟩
  | _ => cases h

/-- The checks refuse a call for one of two reasons. -/
def Refused (status : QueueStatus) : Prop := status = .kUninitialized ∨ status = .kSizeIsZero

theorem refused_of_checkEnqueue {ready : Bool} {status : QueueStatus}
    (h : checkEnqueue ready call = some (.error status)) : Refused status := by
  cases call with
  | enqueueBytes _ | enqueueBulk _ =>
    simp only [checkEnqueue] at h
    split_ifs at h <;> simp_all [Refused]
  | _ => cases h

theorem refused_of_checkDequeue {ready : Bool} {status : QueueStatus}
    (h : checkDequeue ready call = some (.error status)) : Refused status := by
  cases call with
  | dequeueBytes _ | dequeueBulk _ =>
    simp only [checkDequeue] at h
    split_ifs at h <;> simp_all [Refused]
  | _ => cases h

end Checks

/-! ## Bytes on the way -/

/-- **The buffer keeps the stream `s` from position `lo` on.** -/
def Keeps (buffer : Option (List Byte)) (k : ℕ) (s : List Byte) (lo : ℕ) : Prop :=
  ∃ block, buffer = some block ∧ 2 ^ k ≤ block.length ∧ Holds (2 ^ k) block s lo s.length

/-- **The block `reserve` asks for** has room for a power of two of bytes, and keeps none yet. -/
theorem exists_keeps_of_alloc {mem : Allocator} {n capacity : Size} {block : List Byte}
    (hcap : nextPowerOf2 n = some capacity)
    (hmem : mem.alloc (capacity + kCacheSize).toNat = some block) :
    ∃ k, k < 64 ∧ capacity = BitVec.ofNat 64 (2 ^ k) ∧ capacity.toNat = 2 ^ k
      ∧ Keeps (some block) k [] 0 := by
  obtain ⟨k, -, hk, rfl⟩ := exists_eq_twoPow_of_nextPowerOf2 hcap
  have hpow : 2 ^ k < 2 ^ 64 := Nat.pow_lt_pow_right (by norm_num) hk
  have hlen := length_of_alloc hk hmem
  exact ⟨k, hk, rfl, toNat_ofNat_of_lt hpow, block, rfl, by omega, .empty (le_refl 0)⟩

section Reads

variable {k H n : ℕ} {mask : Size} {stream block : List Byte}

/-- A read at the start of what is kept gives its first bytes. -/
theorem readSegments_segments (hk : k < 64) (hmask : mask = BitVec.ofNat 64 (2 ^ k) - 1#64)
    (hhold : Holds (2 ^ k) block stream H stream.length) (hle : n ≤ 2 ^ k)
    (hthere : H + n ≤ stream.length) :
    readSegments block (segments mask (BitVec.ofNat 64 H) (BitVec.ofNat 64 n))
      = (stream.drop H).take n :=
  hhold.readSegments (covers_segments hk hmask H hle) le_rfl hthere

/-- …and so does a bulk read. -/
theorem readSegments_bulkSegments (hk : k < 64) (hmask : mask = BitVec.ofNat 64 (2 ^ k) - 1#64)
    (hhold : Holds (2 ^ k) block stream H stream.length) {ns : List ℕ} (hle : ns.sum ≤ 2 ^ k)
    (hthere : H + ns.sum ≤ stream.length) :
    readSegments block (bulkSegments mask (BitVec.ofNat 64 H) (ns.map (BitVec.ofNat 64)))
      = (stream.drop H).take ns.sum :=
  hhold.readSegments (covers_bulkSegments hk hmask H hle) le_rfl hthere

end Reads

/-- One `memcpy` into the buffer. -/
def copyIn (buffer : Option (List Byte)) (off len : ℕ) (data : List Byte) : Option (List Byte) :=
  buffer.map fun block => splice block off (data.take len)

/-- One `memcpy` out of the buffer. -/
def copyOut (buffer : Option (List Byte)) (off len : ℕ) : List Byte :=
  slice (buffer.getD []) off len

namespace Keeps

variable {buffer : Option (List Byte)} {k lo : ℕ} {s rest : List Byte}

theorem isSome (h : Keeps buffer k s lo) : buffer.isSome = true := by
  obtain ⟨block, rfl, _⟩ := h
  rfl

/-- Later positions are kept too. -/
theorem mono {lo' : ℕ} (h : Keeps buffer k s lo) (hlo : lo ≤ lo') : Keeps buffer k s lo' := by
  obtain ⟨block, hb, hlen, hhold⟩ := h
  exact ⟨block, hb, hlen, hhold.mono hlo (le_refl _)⟩

/-- **One `memcpy` of an enqueue**: it adds its bytes to what is kept, and the rest stays laid
out. -/
theorem copyIn {off len : ℕ} {segs : List (ℕ × ℕ)} (h : Keeps buffer k s lo)
    (hcov : Covers (2 ^ k) s.length ((off, len) :: segs) rest.length)
    (hroom : s.length + rest.length ≤ lo + 2 ^ k) :
    Keeps (Femtolog.copyIn buffer off len rest) k (s ++ rest.take len) lo
      ∧ Covers (2 ^ k) (s ++ rest.take len).length segs (rest.drop len).length
      ∧ (rest.take len).length + (rest.drop len).length = rest.length := by
  obtain ⟨block, rfl, hlen, hhold⟩ := h
  obtain ⟨hnew, hblock, htake, hrest⟩ := hhold.write_cons rfl hcov hlen hroom
  have hsum : (s ++ rest.take len).length = s.length + len := by rw [List.length_append, htake]
  refine ⟨⟨splice block off (rest.take len), rfl, by omega, by rwa [hsum]⟩, by rwa [hsum], ?_⟩
  rw [← List.length_append, List.take_append_drop]

/-- **…and without room for it** it overwrites the oldest bytes: the last `2^k` are kept. -/
theorem copyIn_latest {off len : ℕ} {segs : List (ℕ × ℕ)} (h : Keeps buffer k s (s.length - 2 ^ k))
    (hcov : Covers (2 ^ k) s.length ((off, len) :: segs) rest.length) :
    Keeps (Femtolog.copyIn buffer off len rest) k (s ++ rest.take len)
        ((s ++ rest.take len).length - 2 ^ k)
      ∧ Covers (2 ^ k) (s ++ rest.take len).length segs (rest.drop len).length := by
  obtain ⟨rfl, hseg, m, hm, hrest⟩ := hcov.of_cons
  have hlen : (rest.take len).length = len := by rw [List.length_take]; omega
  have hsum : (s ++ rest.take len).length = s.length + len := by rw [List.length_append, hlen]
  have hone : Covers (2 ^ k) s.length [(s.length % 2 ^ k, len)] (rest.take len).length := by
    rw [hlen]
    exact .cons hseg (.nil _)
  have hlater : Keeps buffer k s (s.length + len - 2 ^ k) := h.mono (by omega)
  have hkeep := (hlater.copyIn hone (by omega)).1
  rw [List.take_take, Nat.min_self] at hkeep
  refine ⟨?_, ?_⟩
  · rw [hsum]
    simpa [Femtolog.copyIn, List.take_take] using hkeep
  · rw [hsum, List.length_drop, show rest.length - len = m by omega]
    exact hrest

/-- **One `memcpy` of a dequeue or a peek.** -/
theorem copyOut {off len p n : ℕ} {segs : List (ℕ × ℕ)} {out t : List Byte}
    (h : Keeps buffer k (s ++ t) lo) (hr : Reading (2 ^ k) s p n ((off, len) :: segs) out)
    (hlo : lo ≤ p + out.length) (hs : p + n ≤ s.length) :
    Reading (2 ^ k) s p n segs (out ++ Femtolog.copyOut buffer off len) := by
  obtain ⟨block, rfl, hlen, hhold⟩ := h
  have hwindow : Holds (2 ^ k) block s lo s.length :=
    (hhold.mono (le_refl lo) (by rw [List.length_append]; omega)).of_append_right (le_refl _)
  exact hr.step hwindow hlo hs hs

end Keeps

end Femtolog
