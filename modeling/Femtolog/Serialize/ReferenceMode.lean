import Femtolog.Serialize.RoundTrip

/-!
# Serialize/ReferenceMode — messages that refer to their arguments

In reference mode a string is written as its view, a trivially copyable value as its bytes, and any
other object is meant to be written as its address.  The writer copies the first eight bytes of the
object instead (`memcpy(pos, ptr, sizeof(ptr))`), and the reader takes them for the address: the
object comes back only if it starts with a pointer to itself (`reference_mode_round_trip`).
-/

namespace Femtolog

/-- The argument is passed on by the address of its object. -/
def Arg.IsObject (a : Arg) : Prop :=
  a.type.isStringLike = false ∧ a.type.decay.isTriviallyCopyable = false

instance (a : Arg) : Decidable a.IsObject :=
  inferInstanceAs
    (Decidable (a.type.isStringLike = false ∧ a.type.decay.isTriviallyCopyable = false))

/-- The object starts with a pointer to itself. -/
def Arg.PointsToItself (mem : Memory) (a : Arg) : Prop := ofWordBytes (mem.read a.addr 8) = a.addr

instance (mem : Memory) (a : Arg) : Decidable (a.PointsToItself mem) :=
  inferInstanceAs (Decidable (ofWordBytes (mem.read a.addr 8) = a.addr))

/-- **When a record stands for its argument** — always, except that an object has to start with a
pointer to itself. -/
theorem Arg.handed_eq_original_iff {mem : Memory} {a : Arg} :
    a.handed true mem = a.original true mem ↔ (a.IsObject → a.PointsToItself mem) := by
  rw [Arg.handed, Arg.original, Arg.IsObject, Arg.PointsToItself]
  simp only [if_true]
  split_ifs with hs ht
  · simp [hs]
  · simp [ht]
  · simp [hs, ht]

section

variable {kCapacity : Size} {mem : Memory} {header : SerializedArgsHeader}
  {args_ out : SerializedArgs kCapacity} {args : List Arg} {records : List (List Byte × Value)}

/-- **The objects of a message that round trips start with pointers to themselves**. -/
theorem RoundTrips.pointsToItself (h : RoundTrips true mem header args_ args out records)
    (hstr : ∀ a ∈ args, a.IsString) : ∀ a ∈ args, a.IsObject → a.PointsToItself mem := by
  obtain ⟨records', h'⟩ := exists_records true mem hstr
    fun _ _ => .inr (.inr rfl)
  have hwritten : records.map Prod.fst = records'.map Prod.fst :=
    Option.some.inj (h.written.symm.trans h'.written)
  have hread : laidOut 0 records = laidOut 0 records' := by
    have hleft := h.read []
    rw [hwritten, h'.readAll] at hleft
    exact (Option.some.inj hleft).symm
  have hvalues : records.map Prod.snd = records'.map Prod.snd := by
    rw [← map_fst_laidOut 0 records, hread, map_fst_laidOut]
  intro a ha
  exact Arg.handed_eq_original_iff.mp (eq_of_mapM_eq h'.handed (hvalues ▸ h.originals) a ha)

/-- …and its size is a size. -/
theorem RoundTrips.serializedSize_lt (h : RoundTrips true mem header args_ args out records) :
    serializedSize true args < 2 ^ 64 := by
  have hserialize := h.serialized
  rw [serialize_ref, h.written, Option.bind_some] at hserialize
  obtain ⟨pos, hpos, -⟩ := Option.map_eq_some_iff.mp hserialize
  have hfits := Cursor.le_of_put hpos
  rw [List.length_append, SerializedArgsHeader.length_bytes, length_records h.written] at hfits
  exact lt_of_le_of_lt ((Nat.le_add_left _ _).trans hfits) kCapacity.isLt

end

/-! ## Two messages -/

/-- An object of 24 bytes at address 16, all zeros, as an empty `std::vector` has them. -/
def emptyVector : Arg := ⟨.lref (.object false false 24), 16#64, none⟩

end Femtolog
