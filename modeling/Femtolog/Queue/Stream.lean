import Mathlib.Data.BitVec
import Femtolog.Foundations.Fifo
import Femtolog.Foundations.Machine
import Femtolog.Queue.Basic

/-!
# Queue/Stream — what a byte queue is for

A byte queue of capacity `c` stands for a bounded FIFO stream: its contents are a list of bytes, an
enqueue appends all its bytes or none, a dequeue takes as many as asked or none, a peek looks
(`answer`).  The bytes of a bulk call are its pieces one after the other.  The two queue classes are
compared with this description, and through it with each other.
-/

namespace Femtolog

/-! ## Sizes -/

/-- A size word is zero only for the size zero. -/
theorem ofNat_eq_zero_iff {n : ℕ} (hn : n < 2 ^ 64) : BitVec.ofNat 64 n = 0#64 ↔ n = 0 := by
  rw [← BitVec.toNat_inj, toNat_ofNat_of_lt hn, BitVec.toNat_zero]

theorem map_sizeWord (pieces : List (List Byte)) :
    pieces.map sizeWord = (pieces.map List.length).map (BitVec.ofNat 64) := by
  rw [List.map_map]
  rfl

/-- The words of a list of sizes, read back. -/
theorem map_ofNat_toNat (sizes : List Size) :
    (sizes.map BitVec.toNat).map (BitVec.ofNat 64) = sizes := by
  rw [List.map_map]
  exact (List.map_congr_left fun n _ => (eq_ofNat_of_toNat_eq rfl).symm).trans (List.map_id _)

/-- The size loop over the words of some sizes counts their sum. -/
theorem totalSize_map (ns : List ℕ) :
    totalSize (ns.map (BitVec.ofNat 64)) = BitVec.ofNat 64 ns.sum := by
  rw [totalSize, foldl_add_ofNat, Nat.zero_add]

theorem totalSize_eq (sizes : List Size) :
    totalSize sizes = BitVec.ofNat 64 (sizes.map BitVec.toNat).sum := by
  rw [← totalSize_map, map_ofNat_toNat]

theorem totalSize_sizeWord (pieces : List (List Byte)) :
    totalSize (pieces.map sizeWord) = BitVec.ofNat 64 pieces.flatten.length := by
  rw [map_sizeWord, totalSize_map, List.length_flatten]

/-! ## Calls and replies -/

/-- A call on a queue.  An enqueue carries the bytes behind its pointers, a dequeue and a peek the
sizes they ask for. -/
inductive Call
  | enqueueBytes (data : List Byte)
  | enqueueBulk (pieces : List (List Byte))
  | dequeueBytes (size : Size)
  | dequeueBulk (sizes : List Size)
  | peekBytes (size : Size)
  | empty
  | size
  | availableSpace
  deriving DecidableEq

/-- What a call returns: a status, with the bytes stored through the caller's pointers, or the value
of a query. -/
inductive Reply
  | status (status : QueueStatus) (bytes : List Byte)
  | flag (value : Bool)
  | count (value : Size)
  deriving DecidableEq

/-- The bytes an enqueue brings. -/
def Call.data : Call → List Byte
  | .enqueueBytes data => data
  | .enqueueBulk pieces => pieces.flatten
  | _ => []

/-- The sizes of one call add up below `2^64`, as the sizes of objects in memory do. -/
def Call.Valid : Call → Prop
  | .enqueueBytes data => data.length < 2 ^ 64
  | .enqueueBulk pieces => pieces.flatten.length < 2 ^ 64
  | .dequeueBulk sizes => (sizes.map BitVec.toNat).sum < 2 ^ 64
  | _ => True

instance : DecidablePred Call.Valid
  | .enqueueBytes data => inferInstanceAs (Decidable (data.length < 2 ^ 64))
  | .enqueueBulk pieces => inferInstanceAs (Decidable (pieces.flatten.length < 2 ^ 64))
  | .dequeueBulk sizes => inferInstanceAs (Decidable ((sizes.map BitVec.toNat).sum < 2 ^ 64))
  | .dequeueBytes _ | .peekBytes _ => inferInstanceAs (Decidable True)
  | .empty | .size | .availableSpace => inferInstanceAs (Decidable True)

/-! ## The stream -/

namespace Stream

/-- Append `data`, all or nothing. -/
def enqueue (c : ℕ) (s data : List Byte) : QueueStatus × List Byte :=
  if data = [] then (.kSizeIsZero, s)
  else match Fifo.push c s data with
    | some s' => (.kOk, s')
    | none => (.kOverflow, s)

/-- Look at the next `n` bytes. -/
def peek (s : List Byte) (n : ℕ) : QueueStatus × List Byte :=
  if n = 0 then (.kSizeIsZero, [])
  else match Fifo.peek s n with
    | some out => (.kOk, out)
    | none => (.kUnderflow, [])

/-- What is left after a dequeue of `n` bytes. -/
def rest (s : List Byte) (n : ℕ) : List Byte := if n ≤ s.length then s.drop n else s

/-- **The reply to a call on a stream of capacity `c`, and the contents after it.** -/
def answer (c : ℕ) (s : List Byte) : Call → Reply × List Byte
  | .enqueueBytes data => (.status (enqueue c s data).1 [], (enqueue c s data).2)
  | .enqueueBulk pieces =>
    (.status (enqueue c s pieces.flatten).1 [], (enqueue c s pieces.flatten).2)
  | .dequeueBytes size => (.status (peek s size.toNat).1 (peek s size.toNat).2, rest s size.toNat)
  | .dequeueBulk sizes =>
    let n := (sizes.map BitVec.toNat).sum
    (.status (peek s n).1 (peek s n).2, rest s n)
  | .peekBytes size => (.status (peek s size.toNat).1 (peek s size.toNat).2, s)
  | .empty => (.flag s.isEmpty, s)
  | .size => (.count (BitVec.ofNat 64 s.length), s)
  | .availableSpace => (.count (BitVec.ofNat 64 (c - s.length)), s)

variable {c n : ℕ} {s data : List Byte}

@[simp] theorem enqueue_nil : enqueue c s [] = (.kSizeIsZero, s) := by simp [enqueue]

theorem enqueue_of_le (hd : data ≠ []) (h : s.length + data.length ≤ c) :
    enqueue c s data = (.kOk, s ++ data) := by
  simp [enqueue, Fifo.push, hd, h]

theorem enqueue_of_lt (hd : data ≠ []) (h : c < s.length + data.length) :
    enqueue c s data = (.kOverflow, s) := by
  simp [enqueue, Fifo.push, hd, Nat.not_le.mpr h]

/-- An enqueue appends its bytes exactly if it succeeds. -/
theorem enqueue_snd :
    (enqueue c s data).2 = if (enqueue c s data).1 = .kOk then s ++ data else s := by
  rcases eq_or_ne data [] with rfl | hd
  · rw [enqueue_nil]
    rfl
  rcases Nat.lt_or_ge c (s.length + data.length) with hlt | hle
  · rw [enqueue_of_lt hd hlt]
    rfl
  · rw [enqueue_of_le hd hle]
    rfl

@[simp] theorem peek_zero : peek s 0 = (.kSizeIsZero, []) := by simp [peek]

theorem peek_of_le (hn : n ≠ 0) (h : n ≤ s.length) : peek s n = (.kOk, s.take n) := by
  simp [peek, Fifo.peek, hn, h]

theorem peek_of_lt (hn : n ≠ 0) (h : s.length < n) : peek s n = (.kUnderflow, []) := by
  simp [peek, Fifo.peek, hn, Nat.not_le.mpr h]

/-- A peek that succeeds returns the first bytes. -/
theorem peek_kOk {bytes : List Byte} (h : peek s n = (.kOk, bytes)) :
    bytes.length = n ∧ bytes <+: s := by
  rcases Nat.eq_zero_or_pos n with rfl | hn
  · rw [peek_zero] at h
    cases h
  rcases Nat.lt_or_ge s.length n with hlt | hle
  · rw [peek_of_lt hn.ne' hlt] at h
    cases h
  · rw [peek_of_le hn.ne' hle] at h
    obtain rfl := (Prod.mk.inj h).2
    exact ⟨List.length_take_of_le hle, List.take_prefix n s⟩

@[simp] theorem rest_zero : rest s 0 = s := by simp [rest]

theorem rest_of_le (h : n ≤ s.length) : rest s n = s.drop n := by simp [rest, h]

theorem rest_of_lt (h : s.length < n) : rest s n = s := by simp [rest, Nat.not_le.mpr h]

/-- The stream as an object that answers calls. -/
def machine (c : ℕ) (s : List Byte) (call : Call) : Option (Reply × List Byte) :=
  some (answer c s call)

/-! ## What a history moved -/

/-- The bytes a returned call has put into the stream. -/
def pushedBy : Call × Reply → List Byte
  | (call, .status .kOk _) => call.data
  | _ => []

/-- The bytes a returned call has taken out of the stream. -/
def poppedBy : Call × Reply → List Byte
  | (.dequeueBytes _, .status .kOk bytes) => bytes
  | (.dequeueBulk _, .status .kOk bytes) => bytes
  | _ => []

/-- The bytes of the successful enqueues of a history, concatenated. -/
def pushed (h : List (Call × Reply)) : List Byte := h.flatMap pushedBy

/-- The bytes of the successful dequeues of a history, concatenated. -/
def popped (h : List (Call × Reply)) : List Byte := h.flatMap poppedBy

@[simp] theorem pushed_snoc (h : List (Call × Reply)) (e : Call × Reply) :
    pushed (h ++ [e]) = pushed h ++ pushedBy e := by simp [pushed]

@[simp] theorem popped_snoc (h : List (Call × Reply)) (e : Call × Reply) :
    popped (h ++ [e]) = popped h ++ poppedBy e := by simp [popped]

theorem pushedBy_of_data_nil {call : Call} (hd : call.data = []) (reply : Reply) :
    pushedBy (call, reply) = [] := by
  unfold pushedBy
  split
  · rename_i heq
    rw [← hd, (Prod.mk.inj heq).1]
  · rfl

/-- An enqueue books its bytes, or nothing. -/
theorem enqueue_ledger (l : Fifo.Ledger Byte) (call : Call) (hd : call.data = data) :
    ∃ l' : Fifo.Ledger Byte, l'.contents = (enqueue c l.contents data).2
      ∧ l'.popped = l.popped
      ∧ l'.pushed = l.pushed ++ pushedBy (call, .status (enqueue c l.contents data).1 []) := by
  by_cases hnil : data = []
  · subst hnil
    exact ⟨l, by simp, rfl, by simp [pushedBy_of_data_nil hd]⟩
  rcases Nat.lt_or_ge c (l.contents.length + data.length) with hlt | hle
  · rw [enqueue_of_lt hnil hlt]
    exact ⟨l, rfl, rfl, by simp [pushedBy]⟩
  · rw [enqueue_of_le hnil hle]
    exact ⟨l.push data, rfl, rfl, by simp [pushedBy, hd, Fifo.Ledger.push]⟩

/-- A dequeue books the bytes it returns. -/
theorem dequeue_ledger (l : Fifo.Ledger Byte) (call : Call) (hd : call.data = [])
    (hcall : ∀ bytes, poppedBy (call, .status .kOk bytes) = bytes) :
    let reply := Reply.status (peek l.contents n).1 (peek l.contents n).2
    ∃ l' : Fifo.Ledger Byte, l'.contents = rest l.contents n
      ∧ l'.popped = l.popped ++ poppedBy (call, reply)
      ∧ l'.pushed = l.pushed ++ pushedBy (call, reply) := by
  dsimp only
  rw [pushedBy_of_data_nil hd, List.append_nil]
  rcases Nat.eq_zero_or_pos n with rfl | hn
  · exact ⟨l, by simp, by simp [poppedBy], rfl⟩
  rcases Nat.lt_or_ge l.contents.length n with hlt | hle
  · rw [peek_of_lt hn.ne' hlt, rest_of_lt hlt]
    exact ⟨l, rfl, by simp [poppedBy], rfl⟩
  · rw [peek_of_le hn.ne' hle, rest_of_le hle, hcall]
    exact ⟨l.pop n, rfl, rfl, rfl⟩

/-- **The bytes a history has moved balance**: what it has taken out and what is left is what it has
put in. -/
theorem ledger_of_explains {h : List (Call × Reply)} (hh : Explains (machine c) [] h s) :
    ∃ l : Fifo.Ledger Byte, l.contents = s ∧ l.popped = popped h ∧ l.pushed = pushed h := by
  induction hh with
  | nil => exact ⟨.empty, rfl, rfl, rfl⟩
  | @snoc h s s' call r _ hm ih =>
    obtain ⟨l, rfl, hpop, hpush⟩ := ih
    obtain ⟨rfl, rfl⟩ := Prod.mk.inj (Option.some.inj hm).symm
    rw [popped_snoc, pushed_snoc, ← hpop, ← hpush]
    cases call with
    | enqueueBytes data =>
      obtain ⟨l', h1, h2, h3⟩ := enqueue_ledger (c := c) l (.enqueueBytes data) rfl
      exact ⟨l', h1, by simpa [poppedBy] using h2, h3⟩
    | enqueueBulk pieces =>
      obtain ⟨l', h1, h2, h3⟩ := enqueue_ledger (c := c) l (.enqueueBulk pieces) rfl
      exact ⟨l', h1, by simpa [poppedBy] using h2, h3⟩
    | dequeueBytes size =>
      exact dequeue_ledger (n := size.toNat) l (.dequeueBytes size) rfl fun _ => rfl
    | dequeueBulk sizes =>
      exact dequeue_ledger (n := (sizes.map BitVec.toNat).sum) l (.dequeueBulk sizes) rfl
        fun _ => rfl
    | peekBytes _ | empty | size | availableSpace =>
      refine ⟨l, rfl, by simp [poppedBy], ?_⟩
      rw [pushedBy_of_data_nil (by rfl), List.append_nil]

end Stream

/-! ## Admission checks

Both queues decide by wrapping subtractions of indices.  On indices that name positions at most one
capacity apart these are the comparisons of the positions. -/

section Checks

variable {k head tail n : ℕ}

/-- **The producer's check** `capacity_ - (tail - head) < size` says that the bytes do not fit. -/
theorem lacks_room_iff (hk : k < 64) (h1 : head ≤ tail) (h2 : tail ≤ head + 2 ^ k)
    (hn : n < 2 ^ 64) :
    BitVec.ofNat 64 (2 ^ k) - (BitVec.ofNat 64 tail - BitVec.ofNat 64 head) < BitVec.ofNat 64 n
      ↔ 2 ^ k < tail - head + n := by
  have hpow : 2 ^ k < 2 ^ 64 := Nat.pow_lt_pow_right (by norm_num) hk
  rw [eq_ofNat_of_toNat_eq (toNat_ofNat_sub_ofNat h1 (by omega)), BitVec.lt_def,
    toNat_ofNat_sub_ofNat (by omega) (by omega), toNat_ofNat_of_lt hn]
  omega

/-- The room the producer computes is never more than there is, even with `head` beyond `tail`. -/
theorem toNat_room_le (h : tail ≤ head + 2 ^ k) :
    (BitVec.ofNat 64 (2 ^ k) - (BitVec.ofNat 64 tail - BitVec.ofNat 64 head)).toNat
      ≤ head + 2 ^ k - tail := by
  have hroom : BitVec.ofNat 64 (2 ^ k) - (BitVec.ofNat 64 tail - BitVec.ofNat 64 head)
      = BitVec.ofNat 64 (head + 2 ^ k - tail) := by
    rw [sub_sub_eq_add_sub, ← BitVec.ofNat_add, Nat.add_comm, ofNat_sub_ofNat h]
  rw [hroom, BitVec.toNat_ofNat]
  exact Nat.mod_le _ _

/-- **The consumer's check** `tail - head < size` says that fewer bytes are there. -/
theorem lacks_data_iff (hk : k < 64) (h1 : head ≤ tail) (h2 : tail ≤ head + 2 ^ k)
    (hn : n < 2 ^ 64) :
    BitVec.ofNat 64 tail - BitVec.ofNat 64 head < BitVec.ofNat 64 n ↔ tail - head < n := by
  have hpow : 2 ^ k < 2 ^ 64 := Nat.pow_lt_pow_right (by norm_num) hk
  rw [BitVec.lt_def, toNat_ofNat_sub_ofNat h1 (by omega), toNat_ofNat_of_lt hn]

end Checks

end Femtolog
