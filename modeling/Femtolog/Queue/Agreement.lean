import Femtolog.Queue.Spsc
import Femtolog.Queue.Spmc

/-!
# Queue/Agreement — the two queues, one call at a time, are the same queue

Both refine the bounded stream of their capacity, so a queue of either class answers every sequence
of calls as the other does.  What relates them in between is not their indices, which have little in
common, but the bytes they contain.
-/

namespace Femtolog

/-- The queue as an object that answers calls. -/
def SpscQueue.machine (q : SpscQueue) (call : Call) : Option (Reply × SpscQueue) :=
  some (q.call call)

/-- **Queues of the two classes alike**: both contain the same bytes at the same capacity, or both
are uninitialized. -/
def Alike (sp : SpscQueue) (sm : SpmcQueue) : Prop :=
  (∃ k s, sp.Contains k s ∧ sm.Contains k s) ∨ (sp = {} ∧ sm = {})

/-- Queues reserved with the same argument are alike. -/
theorem alike_of_reserve {mem mem' : Allocator} {n : Size} {sp : SpscQueue} {sm : SpmcQueue}
    (hsp : SpscQueue.reserve mem n = some sp) (hsm : SpmcQueue.reserve mem' n = some sm)
    (halloc : sp.buffer.isSome = sm.buffer.isSome) : Alike sp sm := by
  cases hbuf : sp.buffer.isSome with
  | true =>
    obtain ⟨k, _, hk, hi, hs⟩ := SpscQueue.indexed_of_reserve hsp hbuf
    obtain ⟨k', _, hk', hi', hs'⟩ := SpmcQueue.settled_of_reserve hsm (halloc ▸ hbuf)
    have hpow : 2 ^ k = 2 ^ k' := by
      have hk64 : 2 ^ k < 2 ^ 64 := Nat.pow_lt_pow_right (by norm_num) hi.k_lt
      have hk64' : 2 ^ k' < 2 ^ 64 := Nat.pow_lt_pow_right (by norm_num) hi'.k_lt
      have hword := congrArg BitVec.toNat (Option.some.inj (hk.symm.trans hk'))
      rwa [toNat_ofNat_of_lt hk64, toNat_ofNat_of_lt hk64'] at hword
    obtain rfl : k = k' := Nat.pow_right_injective (le_refl 2) hpow
    exact .inl ⟨k, [], ⟨[], 0, hi, hs, rfl⟩, ⟨[], 0, hi', hs', rfl⟩⟩
  | false =>
    obtain ⟨c, _, rfl⟩ := Option.map_eq_some_iff.mp hsp
    obtain ⟨c', _, rfl⟩ := Option.map_eq_some_iff.mp hsm
    rw [hbuf] at halloc
    revert hbuf halloc
    cases mem.alloc (c + kCacheSize).toNat <;> cases mem'.alloc (c' + kCacheSize).toNat <;> simp
    exact .inr ⟨rfl, rfl⟩

/-- A call on an uninitialized queue replies the same for both classes, and changes nothing. -/
theorem call_uninitialized (call : Call) :
    ∃ r, SpscQueue.call {} call = (r, {}) ∧ SpmcQueue.call {} call = some (r, {}) := by
  cases call with
  | enqueueBytes _ | enqueueBulk _ | peekBytes _ =>
    exact ⟨.status .kUninitialized [], rfl, rfl⟩
  | dequeueBytes _ | dequeueBulk _ => exact ⟨.status .kUninitialized [], rfl, rfl⟩
  | empty => exact ⟨.flag true, rfl, rfl⟩
  | size | availableSpace => exact ⟨.count 0#64, rfl, rfl⟩

/-- **One call keeps queues alike**, and they reply the same. -/
theorem Alike.call {sp : SpscQueue} {sm : SpmcQueue} {call : Call} (h : Alike sp sm)
    (hv : call.Valid) :
    ∃ r sp' sm', sp.machine call = some (r, sp') ∧ sm.call call = some (r, sm')
      ∧ Alike sp' sm' := by
  rcases h with ⟨k, s, hsp, hsm⟩ | ⟨rfl, rfl⟩
  · obtain ⟨hreply, hsp'⟩ := SpscQueue.call_spec hsp hv
    obtain ⟨sm', hcall, hsm'⟩ := SpmcQueue.call_spec hsm hv
    exact ⟨_, _, sm', congrArg some (Prod.ext hreply rfl), hcall, .inl ⟨k, _, hsp', hsm'⟩⟩
  · obtain ⟨r, hsp, hsm⟩ := call_uninitialized call
    exact ⟨r, {}, {}, congrArg some hsp, hsm, .inr ⟨rfl, rfl⟩⟩

/-- **A `SpscQueue` and a `SpmcQueue` reserved with the same argument reply the same to every
sequence of calls**, and every call of either returns. -/
theorem queues_agree {mem mem' : Allocator} {n : Size} {sp : SpscQueue} {sm : SpmcQueue}
    (hsp : SpscQueue.reserve mem n = some sp) (hsm : SpmcQueue.reserve mem' n = some sm)
    (halloc : sp.buffer.isSome = sm.buffer.isSome) {calls : List Call}
    (hv : ∀ call ∈ calls, call.Valid) :
    ∃ replies sp' sm', answers SpscQueue.machine sp calls = some (replies, sp')
      ∧ answers SpmcQueue.call sm calls = some (replies, sm') := by
  obtain ⟨replies, sp', sm', h1, h2, _⟩ :=
    answers_of_simulation (m := SpscQueue.machine) (n := SpmcQueue.call) (R := Alike) Alike.call hv
      (alike_of_reserve hsp hsm halloc)
  exact ⟨replies, sp', sm', h1, h2⟩

/-- A few calls on queues of four bytes: across the end of the buffer, and into an overflow. -/
theorem queues_agree_four :
    ∃ replies sp' sm',
      answers SpscQueue.machine
          { buffer := some (List.replicate 68 0), capacity := 4#64, mask := 3#64 }
          [.enqueueBytes [1, 2, 3], .dequeueBytes 2#64, .enqueueBulk [[4], [], [5, 6]],
            .enqueueBytes [7], .peekBytes 4#64, .size] = some (replies, sp')
        ∧ answers SpmcQueue.call
          { buffer := some (List.replicate 68 0), capacity := 4#64, mask := 3#64 }
          [.enqueueBytes [1, 2, 3], .dequeueBytes 2#64, .enqueueBulk [[4], [], [5, 6]],
            .enqueueBytes [7], .peekBytes 4#64, .size] = some (replies, sm') :=
  have hsp : SpscQueue.reserve .zeroed 4#64 = some _ := rfl
  have hsm : SpmcQueue.reserve .zeroed 4#64 = some _ := rfl
  queues_agree hsp hsm rfl (by simp [Call.Valid])

end Femtolog
