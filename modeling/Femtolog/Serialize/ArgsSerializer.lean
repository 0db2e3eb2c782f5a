import Mathlib.Algebra.BigOperators.Group.List.Basic
import Femtolog.Serialize.CppType

/-!
# Serialize/ArgsSerializer — the argument serializer

`ArgsSerializer::serialize` writes the header and then the arguments into the buffer of a
`SerializedArgs`.  In value mode it first adds up the lengths of the strings and gives the message
up, with size 0, unless everything fits; in reference mode all sizes are static.  A `memcpy` that
would leave the buffer, and a read through a null pointer, leave the result undefined.

Every writer puts one `record` per argument (`writeArg_eq`), so the whole of `serialize` is one
`put` of header and records (`serialize_value`, `serialize_ref`).
-/

namespace Femtolog

/-! ## The buffer -/

/-- `SerializedArgsHeader`: the two function pointers. -/
structure SerializedArgsHeader where
  formatFunc : Size
  deserializeAndFormatFunc : Size
  deriving DecidableEq

/-- `sizeof(SerializedArgsHeader)`. -/
def sizeofHeader : Size := 16#64

/-- The header as it lies in memory. -/
def SerializedArgsHeader.bytes (header : SerializedArgsHeader) : List Byte :=
  wordBytes header.formatFunc ++ wordBytes header.deserializeAndFormatFunc

@[simp] theorem SerializedArgsHeader.length_bytes (header : SerializedArgsHeader) :
    header.bytes.length = 16 := by
  rw [bytes, List.length_append, length_wordBytes, length_wordBytes]

/-- `SerializedArgs<kCapacity>`. -/
@[ext] structure SerializedArgs (kCapacity : Size) where
  buffer : List Byte
  size : Size
  length_buffer : buffer.length = kCapacity.toNat

namespace SerializedArgs

variable {kCapacity : Size}

/-- A buffer before its first message. -/
def zeroed (kCapacity : Size) : SerializedArgs kCapacity :=
  ⟨List.replicate kCapacity.toNat 0, 0#64, List.length_replicate⟩

/-- `resize`. -/
def resize (args : SerializedArgs kCapacity) (size : Size) : SerializedArgs kCapacity :=
  { args with size }

/-- `data()`, as the position the serializer starts to write at. -/
def data (args : SerializedArgs kCapacity) : Cursor Byte kCapacity.toNat :=
  .start args.buffer args.length_buffer

/-- The buffer as the writes up to `pos` leave it. -/
def written (args : SerializedArgs kCapacity) (pos : Cursor Byte kCapacity.toNat) :
    SerializedArgs kCapacity := ⟨pos.cells, args.size, pos.length_cells⟩

/-- The bytes serialized. -/
def bytes (args : SerializedArgs kCapacity) : List Byte := args.buffer.take args.size.toNat

end SerializedArgs

/-! ## Sizes -/

/-- The lambda `add_arg_size`. -/
def addArgSize (refMode : Bool) (t : CppType) : Size :=
  if t.decay.isStringLike then if refMode then 8#64 + 8#64 else 0#64
  else if t.decay.isTriviallyCopyable then BitVec.ofNat 64 t.decay.sizeof
  else if refMode then 8#64
  else 0#64  -- does not compile

/-- `calculate_min_serialized_size`. -/
def calculateMinSerializedSize (refMode : Bool) (types : List CppType) : Size :=
  types.foldl (fun total t => total + addArgSize refMode t) sizeofHeader

/-- **The call compiles**: it has an argument, each of a supported type, and the static sizes fit
the buffer. -/
structure StaticAsserts (kCapacity : Size) (refMode : Bool) (types : List CppType) : Prop where
  nonempty : types ≠ []
  supported : ∀ t ∈ types,
    t.decay.isStringLike = true ∨ t.decay.isTriviallyCopyable = true ∨ refMode = true
  header_le : sizeofHeader ≤ kCapacity
  min_le : calculateMinSerializedSize refMode types ≤ kCapacity

/-- `add_dynamic_string_length`. -/
def addDynamicStringLength (mem : Memory) (dest : Size) (value : Arg) : Option Size :=
  if value.type.decay.isStringLike then
    (value.toStringView mem).map fun view => dest + (8#64 + view.size)
  else some dest

/-! ## Writing -/

/-- `write_arg`.  The last branch of the source does not compile. -/
def writeArg (refMode : Bool) (mem : Memory) {n : ℕ} (pos : Cursor Byte n) (value : Arg) :
    Option (Cursor Byte n) :=
  if value.type.decay.isStringLike then
    (value.toStringView mem).bind fun view =>
      if refMode then
        (pos.put (wordBytes view.data)).bind fun pos => pos.put (wordBytes view.size)
      else
        (pos.put (wordBytes view.size)).bind fun pos =>
          if 0#64 < view.size then pos.put (mem.text view) else some pos
  else if value.type.decay.isTriviallyCopyable then
    pos.put (mem.read value.addr value.type.decay.sizeof)
  else if refMode then
    -- `memcpy(pos, ptr, sizeof(ptr))` copies from the object, not its address
    pos.put (mem.read value.addr 8)
  else none

/-- `ArgsSerializer::serialize`, with `args_` the member it returns. -/
def serialize (refMode : Bool) (mem : Memory) {kCapacity : Size} (header : SerializedArgsHeader)
    (args_ : SerializedArgs kCapacity) (args : List Arg) : Option (SerializedArgs kCapacity) :=
  let kTotalSizeExcludingDynStr := calculateMinSerializedSize refMode (args.map Arg.type)
  if refMode then
    (args_.data.put header.bytes).bind fun pos =>
    (args.foldlM (writeArg true mem) pos).map fun pos =>
      (args_.written pos).resize kTotalSizeExcludingDynStr
  else
    (args.foldlM (addDynamicStringLength mem) 0#64).bind fun dynamicStringsLength =>
    let totalSerializedSize := kTotalSizeExcludingDynStr + dynamicStringsLength
    if kCapacity ≤ totalSerializedSize then some (args_.resize 0#64)
    else
      (args_.data.put header.bytes).bind fun pos =>
      (args.foldlM (writeArg false mem) pos).map fun pos =>
        (args_.written pos).resize (kTotalSizeExcludingDynStr + dynamicStringsLength)

/-! ## Records -/

namespace Arg

/-- The bytes written for an argument. -/
def record (refMode : Bool) (mem : Memory) (a : Arg) : Option (List Byte) :=
  if a.type.isStringLike then
    a.view.map fun view =>
      if refMode then wordBytes view.data ++ wordBytes view.size
      else wordBytes view.size ++ mem.text view
  else if a.type.decay.isTriviallyCopyable then some (mem.read a.addr a.type.decay.sizeof)
  else if refMode then some (mem.read a.addr 8)
  else none

/-- A string-like argument is a string: not a null pointer. -/
def IsString (a : Arg) : Prop := a.type.isStringLike = true → a.view.isSome = true

instance (a : Arg) : Decidable a.IsString :=
  inferInstanceAs (Decidable (a.type.isStringLike = true → a.view.isSome = true))

end Arg

/-- **A writer puts the record of its argument.** -/
theorem writeArg_eq (refMode : Bool) (mem : Memory) {n : ℕ} (pos : Cursor Byte n) (a : Arg) :
    writeArg refMode mem pos a = (a.record refMode mem).bind pos.put := by
  rw [writeArg, Arg.record, Arg.toStringView_eq, CppType.isStringLike_decay]
  split_ifs with hs hr ht hr'
  · cases a.view with
    | none => rfl
    | some view => exact Cursor.put_bind_put pos _ _
  · cases a.view with
    | none => rfl
    | some view =>
      simp only [Option.bind_some, Option.map_some, ← Cursor.put_bind_put]
      refine congrArg _ (funext fun pos' => ?_)
      split_ifs with hpos
      · rfl
      · have hzero : view.size = 0#64 := by bv_omega
        have hempty : mem.text view = [] := by
          rw [← List.length_eq_zero_iff, Memory.length_text, hzero, BitVec.toNat_zero]
        rw [hempty, Cursor.put_nil]
  · rfl
  · rfl
  · rfl

/-- The writers put the records of the arguments after the header. -/
theorem writeArgs_eq (refMode : Bool) (mem : Memory) {n : ℕ} (args : List Arg)
    (pos : Cursor Byte n) (header : List Byte) :
    ((pos.put header).bind fun pos => args.foldlM (writeArg refMode mem) pos)
      = (args.mapM (Arg.record refMode mem)).bind fun rs => pos.put (header ++ rs.flatten) := by
  have hfold : (fun pos : Cursor Byte n => args.foldlM (writeArg refMode mem) pos)
      = fun pos => (args.mapM (Arg.record refMode mem)).bind fun rs => pos.put rs.flatten :=
    funext fun pos => foldlM_put (fun c a => writeArg_eq refMode mem c a) args pos
  rw [hfold]
  cases args.mapM (Arg.record refMode mem) with
  | none => simp
  | some rs => exact Cursor.put_bind_put pos header rs.flatten

/-! ## Lengths -/

/-- The part of an argument's record whose length its type decides. -/
def CppType.staticLength (refMode : Bool) (t : CppType) : ℕ :=
  if t.isStringLike then if refMode then 16 else 0
  else if t.decay.isTriviallyCopyable then t.decay.sizeof
  else if refMode then 8
  else 0

/-- The part of a record in value mode whose length the value decides: eight bytes and the text of a
string. -/
def Arg.dynamicLength (a : Arg) : ℕ :=
  if a.type.isStringLike then 8 + (a.view.map fun view => view.size.toNat).getD 0 else 0

/-- The length of an argument's record. -/
def Arg.recordLength (refMode : Bool) (a : Arg) : ℕ :=
  a.type.staticLength refMode + if refMode then 0 else a.dynamicLength

/-- **The size of a message**: the header, the fixed sizes, and in value mode eight bytes and the
text of every string. -/
def serializedSize (refMode : Bool) (args : List Arg) : ℕ :=
  16 + (args.map (Arg.recordLength refMode)).sum

theorem Arg.length_record {refMode : Bool} {mem : Memory} {a : Arg} {r : List Byte}
    (h : a.record refMode mem = some r) : r.length = a.recordLength refMode := by
  rw [Arg.record] at h
  rw [Arg.recordLength, CppType.staticLength, Arg.dynamicLength]
  split_ifs at h ⊢ with hs hr ht hr'
  · obtain ⟨view, hview, rfl⟩ := Option.map_eq_some_iff.mp h
    rw [List.length_append, length_wordBytes, length_wordBytes]
  · obtain ⟨view, hview, rfl⟩ := Option.map_eq_some_iff.mp h
    rw [List.length_append, length_wordBytes, Memory.length_text, hview, Nat.zero_add]
    rfl
  · rw [← Option.some.inj h, Memory.length_read, Nat.add_zero]
  · rw [← Option.some.inj h, Memory.length_read, Nat.add_zero]
  · rw [← Option.some.inj h, Memory.length_read]

/-- The records of a message have its size, less the header. -/
theorem length_records {refMode : Bool} {mem : Memory} {args : List Arg} {rs : List (List Byte)}
    (h : args.mapM (Arg.record refMode mem) = some rs) :
    16 + rs.flatten.length = serializedSize refMode args := by
  have hrecords := mapM_eq_some_iff.mp h
  clear h
  rw [serializedSize, List.length_flatten]
  induction hrecords with
  | nil => rfl
  | cons hr _ ih =>
    simp only [List.map_cons, List.sum_cons, Arg.length_record hr]
    omega

theorem addArgSize_eq (refMode : Bool) (t : CppType) :
    addArgSize refMode t = BitVec.ofNat 64 (t.staticLength refMode) := by
  rw [addArgSize, CppType.staticLength, CppType.isStringLike_decay]
  split_ifs <;> rfl

/-- The static size, as the sum it is computed from. -/
theorem calculateMinSerializedSize_eq (refMode : Bool) (types : List CppType) :
    calculateMinSerializedSize refMode types
      = BitVec.ofNat 64 (16 + (types.map (CppType.staticLength refMode)).sum) := by
  rw [← foldl_add_ofNat, List.foldl_map, List.foldl_map, calculateMinSerializedSize]
  simp only [addArgSize_eq]
  rfl

/-- In reference mode all of a message is static. -/
theorem calculateMinSerializedSize_ref (args : List Arg) :
    calculateMinSerializedSize true (args.map Arg.type)
      = BitVec.ofNat 64 (serializedSize true args) := by
  rw [calculateMinSerializedSize_eq, List.map_map, serializedSize]
  rfl

/-- The pass over the strings adds up their lengths. -/
theorem foldlM_addDynamicStringLength (mem : Memory) {args : List Arg}
    (hstr : ∀ a ∈ args, a.IsString) (n : ℕ) :
    args.foldlM (addDynamicStringLength mem) (BitVec.ofNat 64 n)
      = some (BitVec.ofNat 64 (n + (args.map Arg.dynamicLength).sum)) := by
  induction args generalizing n with
  | nil => rfl
  | cons a args ih =>
    have hhead : addDynamicStringLength mem (BitVec.ofNat 64 n) a
        = some (BitVec.ofNat 64 (n + a.dynamicLength)) := by
      rw [addDynamicStringLength, Arg.dynamicLength, CppType.isStringLike_decay,
        Arg.toStringView_eq]
      split_ifs with hs
      · obtain ⟨view, hview⟩ := Option.isSome_iff_exists.mp (hstr a List.mem_cons_self hs)
        have hword : view.size = BitVec.ofNat 64 view.size.toNat := eq_ofNat_of_toNat_eq rfl
        rw [hview, Option.map_some, Option.map_some, Option.getD_some, BitVec.ofNat_add,
          BitVec.ofNat_add, ← hword]
      · rfl
    rw [List.foldlM_cons, hhead, List.map_cons, List.sum_cons, ← Nat.add_assoc]
    exact ih (fun b hb => hstr b (List.mem_cons_of_mem a hb)) (n + a.dynamicLength)

/-! ## The serializer -/

section Serialize

variable {kCapacity : Size} (mem : Memory) (header : SerializedArgsHeader)
  (args_ : SerializedArgs kCapacity) (args : List Arg)

/-- What the serializer returns once header and records are in the buffer. -/
def SerializedArgs.filled (rs : List (List Byte)) (size : Size) :
    Option (SerializedArgs kCapacity) :=
  (args_.data.put (header.bytes ++ rs.flatten)).map fun pos => (args_.written pos).resize size

theorem filled_eq (refMode : Bool) (size : Size) :
    ((args_.data.put header.bytes).bind fun pos =>
      (args.foldlM (writeArg refMode mem) pos).map fun pos => (args_.written pos).resize size)
      = (args.mapM (Arg.record refMode mem)).bind fun rs => args_.filled header rs size := by
  have hwrite := congrArg (Option.map fun pos => (args_.written pos).resize size)
    (writeArgs_eq refMode mem args args_.data header.bytes)
  rw [Option.map_bind, Option.map_bind] at hwrite
  exact hwrite

/-- **`serialize` in value mode**: a message that seems too large is given up, any other is put
into the buffer in one go. -/
theorem serialize_value (hstr : ∀ a ∈ args, a.IsString) :
    serialize false mem header args_ args
      = if kCapacity ≤ BitVec.ofNat 64 (serializedSize false args) then some (args_.resize 0#64)
        else (args.mapM (Arg.record false mem)).bind fun rs =>
          args_.filled header rs (BitVec.ofNat 64 (serializedSize false args)) := by
  have hdynamic := foldlM_addDynamicStringLength mem hstr 0
  have htotal : calculateMinSerializedSize false (args.map Arg.type)
      + BitVec.ofNat 64 (0 + (args.map Arg.dynamicLength).sum)
      = BitVec.ofNat 64 (serializedSize false args) := by
    have hsplit : Arg.recordLength false = fun a => a.type.staticLength false + a.dynamicLength :=
      rfl
    rw [calculateMinSerializedSize_eq, ← BitVec.ofNat_add, List.map_map, serializedSize, hsplit,
      List.sum_map_add, Nat.zero_add, Nat.add_assoc]
    rfl
  rw [serialize]
  simp only [Bool.false_eq_true, if_false, hdynamic, Option.bind_some, htotal]
  split_ifs with hfull
  · rfl
  · exact filled_eq mem header args_ args false _

/-- **`serialize` in reference mode** puts the message into the buffer without a check. -/
theorem serialize_ref :
    serialize true mem header args_ args
      = (args.mapM (Arg.record true mem)).bind fun rs =>
          args_.filled header rs (BitVec.ofNat 64 (serializedSize true args)) := by
  rw [serialize]
  simp only [if_true, calculateMinSerializedSize_ref]
  exact filled_eq mem header args_ args true _

/-- A message that fits is put into the buffer. -/
theorem exists_filled {mem : Memory} {args : List Arg} {refMode : Bool} {rs : List (List Byte)}
    (hrs : args.mapM (Arg.record refMode mem) = some rs)
    (hfits : serializedSize refMode args ≤ kCapacity.toNat) (size : Size) :
    ∃ out, args_.filled header rs size = some out := by
  have hroom : args_.data.pos + (header.bytes ++ rs.flatten).length ≤ kCapacity.toNat := by
    rw [List.length_append, SerializedArgsHeader.length_bytes, length_records hrs]
    simpa [SerializedArgs.data, Cursor.start] using hfits
  obtain ⟨pos, hpos⟩ := Cursor.exists_put args_.data (header.bytes ++ rs.flatten) hroom
  exact ⟨_, by rw [SerializedArgs.filled, hpos, Option.map_some]⟩

variable {mem header args_ args}

/-- **A message in the buffer** is header and records, and was written over as many bytes. -/
theorem filled_spec {refMode : Bool} {rs : List (List Byte)} {out : SerializedArgs kCapacity}
    (hrs : args.mapM (Arg.record refMode mem) = some rs)
    (h : args_.filled header rs (BitVec.ofNat 64 (serializedSize refMode args)) = some out) :
    out.size.toNat = serializedSize refMode args ∧
      out.buffer
        = header.bytes ++ rs.flatten ++ args_.buffer.drop (serializedSize refMode args) := by
  obtain ⟨pos, hpos, rfl⟩ := Option.map_eq_some_iff.mp h
  have hbytes : (header.bytes ++ rs.flatten).length = serializedSize refMode args := by
    rw [List.length_append, SerializedArgsHeader.length_bytes, length_records hrs]
  have hfits := Cursor.le_of_put hpos
  have hcells := Cursor.put_start hpos
  rw [hbytes] at hfits hcells
  exact ⟨toNat_ofNat_of_lt (lt_of_le_of_lt ((Nat.le_add_left _ _).trans hfits) kCapacity.isLt),
    hcells⟩

/-- What the serializer returns is a message in the buffer, or was given up with size 0. -/
theorem filled_of_serialize {refMode : Bool} {out : SerializedArgs kCapacity}
    (hstr : ∀ a ∈ args, a.IsString) (h : serialize refMode mem header args_ args = some out) :
    (∃ rs, args.mapM (Arg.record refMode mem) = some rs ∧
      args_.filled header rs (BitVec.ofNat 64 (serializedSize refMode args)) = some out) ∨
    out.size = 0#64 ∧ kCapacity ≤ BitVec.ofNat 64 (serializedSize refMode args) := by
  cases refMode with
  | true =>
    rw [serialize_ref] at h
    exact .inl (Option.bind_eq_some_iff.mp h)
  | false =>
    rw [serialize_value mem header args_ args hstr] at h
    split_ifs at h with hfull
    · exact .inr ⟨(congrArg SerializedArgs.size (Option.some.inj h)).symm, hfull⟩
    · exact .inl (Option.bind_eq_some_iff.mp h)

/-- **A message that is not given up** is header and records. -/
theorem bytes_of_serialize {refMode : Bool} {out : SerializedArgs kCapacity}
    (hstr : ∀ a ∈ args, a.IsString) (h : serialize refMode mem header args_ args = some out)
    (hsize : out.size ≠ 0#64) :
    ∃ rs, args.mapM (Arg.record refMode mem) = some rs ∧
      out.bytes = header.bytes ++ rs.flatten := by
  obtain ⟨rs, hrs, hout⟩ :=
    (filled_of_serialize hstr h).resolve_right fun hgiven => hsize hgiven.1
  obtain ⟨hlen, hbuffer⟩ := filled_spec hrs hout
  refine ⟨rs, hrs, ?_⟩
  rw [SerializedArgs.bytes, hbuffer, hlen]
  exact List.take_left' (by
    rw [List.length_append, SerializedArgsHeader.length_bytes, length_records hrs])

/-- A message that the serializer returns has its size, or was given up as too large. -/
theorem size_of_serialize {refMode : Bool} {out : SerializedArgs kCapacity}
    (hstr : ∀ a ∈ args, a.IsString) (h : serialize refMode mem header args_ args = some out) :
    out.size.toNat = serializedSize refMode args ∨
      out.size = 0#64 ∧ kCapacity ≤ BitVec.ofNat 64 (serializedSize refMode args) :=
  (filled_of_serialize hstr h).imp_left fun ⟨_, hrs, hout⟩ => (filled_spec hrs hout).1

end Serialize

end Femtolog
