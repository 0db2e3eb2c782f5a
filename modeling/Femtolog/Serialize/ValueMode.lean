import Femtolog.Serialize.RoundTrip

/-!
# Serialize/ValueMode — messages that own their arguments

In value mode strings are copied into the message.  A message below the capacity gives its arguments
back, whatever their number, kinds and lengths; one that is not is given up, as long as its size is
a size at all (`value_mode_round_trip`).  The lengths of the strings are added up in a `size_t`
without a check: views whose lengths add up to `2^64` seem to need almost nothing, and the writer
leaves the buffer (`value_mode_wraps`).
-/

namespace Femtolog

/-- In value mode the reader makes of every record the original argument. -/
theorem Arg.handed_eq_original {mem : Memory} {a : Arg} (hsup : a.Supported false) :
    a.handed false mem = a.original false mem := by
  rw [Arg.handed, Arg.original]
  split_ifs with hs _ ht
  · rfl
  · rfl
  · rfl
  · exact absurd hsup (by simp [Arg.Supported, hs, ht])

section

variable {kCapacity : Size} {refMode : Bool} {args : List Arg}

/-- The types of a call that compiles are supported. -/
theorem StaticAsserts.supported_arg
    (h : StaticAsserts kCapacity refMode (args.map Arg.type)) {a : Arg} (ha : a ∈ args) :
    a.Supported refMode := by
  have := h.supported a.type (List.mem_map_of_mem ha)
  rwa [CppType.isStringLike_decay] at this

/-- **Value mode gives the arguments back** — a message whose size is below the capacity round
trips; any other is given up with size 0, and nothing is written. -/
theorem value_mode_round_trip (hc : StaticAsserts kCapacity false (args.map Arg.type))
    (hstr : ∀ a ∈ args, a.IsString) (mem : Memory) (header : SerializedArgsHeader)
    (args_ : SerializedArgs kCapacity) :
    (serializedSize false args < kCapacity.toNat →
      ∃ out records, RoundTrips false mem header args_ args out records) ∧
    (kCapacity.toNat ≤ serializedSize false args → serializedSize false args < 2 ^ 64 →
      serialize false mem header args_ args = some (args_.resize 0#64)) := by
  have hserialize := serialize_value mem header args_ args hstr
  constructor
  · intro hlt
    obtain ⟨records, hrecords⟩ :=
      exists_records false mem hstr fun a ha => hc.supported_arg ha
    have hword : ¬kCapacity ≤ BitVec.ofNat 64 (serializedSize false args) := by
      rw [BitVec.le_def, toNat_ofNat_of_lt (hlt.trans kCapacity.isLt)]
      omega
    rw [if_neg hword, hrecords.written, Option.bind_some] at hserialize
    obtain ⟨out, hout⟩ := hrecords.roundTrips (fun h => hc.nonempty (h ▸ rfl)) hserialize hlt.le
      fun a ha => Arg.handed_eq_original (hc.supported_arg ha)
    exact ⟨out, records, hout⟩
  · intro hle hsize
    have hword : kCapacity ≤ BitVec.ofNat 64 (serializedSize false args) := by
      rwa [BitVec.le_def, toNat_ofNat_of_lt hsize]
    rw [hserialize, if_pos hword]

end

/-! ## Two messages -/

/-- A string of three bytes and a number of four, in a buffer of the default capacity. -/
theorem value_mode_round_trip_two :
    ∃ out records, RoundTrips false .blank ⟨1#64, 2#64⟩ (.zeroed 2048#64)
      [.ofView ⟨1#64, 3#64⟩, ⟨.object false true 4, 16#64, none⟩] out records :=
  (value_mode_round_trip ⟨by decide, by decide, by decide, by decide⟩ (by decide) .blank
    ⟨1#64, 2#64⟩ (.zeroed 2048#64)).1 (by decide)

/-- Four strings of `2^62 - 5` bytes each. -/
def hugeStrings : List Arg :=
  List.replicate 4 (.ofView ⟨0#64, BitVec.ofNat 64 (2 ^ 62 - 5)⟩)

/-- **Sizes that wrap** — the four strings seem to need 28 bytes in all; the serializer does not
give the message up, and writes past the end of the buffer. -/
theorem value_mode_wraps :
    ¬∀ (kCapacity : Size) (args : List Arg), StaticAsserts kCapacity false (args.map Arg.type) →
      (∀ a ∈ args, a.IsString) → kCapacity.toNat ≤ serializedSize false args →
      ∀ (mem : Memory) (header : SerializedArgsHeader) (args_ : SerializedArgs kCapacity),
        serialize false mem header args_ args = some (args_.resize 0#64) := by
  intro h
  have hstr : ∀ a ∈ hugeStrings, a.IsString := by decide
  have hgiven := h 64#64 hugeStrings ⟨by decide, by decide, by decide, by decide⟩ hstr (by decide)
    .blank ⟨1#64, 2#64⟩ (.zeroed 64#64)
  rw [serialize_value _ _ _ _ hstr, if_neg (by decide)] at hgiven
  obtain ⟨rs, hrs, hfilled⟩ := Option.bind_eq_some_iff.mp hgiven
  obtain ⟨pos, hpos, -⟩ := Option.map_eq_some_iff.mp hfilled
  have hlong : 64 < 16 + rs.flatten.length := by
    rw [length_records hrs]
    decide
  rw [Cursor.put_eq_none] at hpos
  · cases hpos
  · rw [List.length_append, SerializedArgsHeader.length_bytes]
    exact lt_of_lt_of_le hlong (Nat.le_add_left _ _)

end Femtolog
