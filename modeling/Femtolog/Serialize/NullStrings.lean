import Femtolog.Serialize.RoundTrip

/-!
# Serialize/NullStrings — null pointers to `char`

`to_string_view` has a branch that takes a null pointer for the text `(nullptr)`, but only for
arrays, which decay has made into pointers by then (`CppType.isCharArray_eq_false`).  So the length
of a null pointer is taken wherever one is logged, before the message is written in value mode and
while it is in reference mode, and no message comes of it (`not_serializesAsNullText`).
-/

namespace Femtolog

namespace CppType

/-- `char*`, or a reference to one. -/
def isCharPointer : CppType → Bool
  | charPtr => true
  | lref t => isCharPointer t
  | _ => false

theorem decay_of_isCharPointer {t : CppType} (h : t.isCharPointer = true) : t.decay = charPtr := by
  induction t with
  | charPtr => rfl
  | lref t ih => exact ih h
  | charArray n => cases h
  | stdString => cases h
  | stringView => cases h
  | object toView triviallyCopyable size => cases h

/-- A pointer to `char` is string-like. -/
theorem isStringLike_of_isCharPointer {t : CppType} (h : t.isCharPointer = true) :
    t.isStringLike = true := by
  rw [← isStringLike_decay, decay_of_isCharPointer h]
  rfl

end CppType

/-! ## What should be made of them -/

/-- An argument that is a null pointer to `char`. -/
structure Arg.IsNull (a : Arg) : Prop where
  pointer : a.type.isCharPointer = true
  null : a.view = none

/-- The view on the literal of `to_string_view`. -/
def Memory.nullView (mem : Memory) : StringView := ⟨mem.nullText, 9#64⟩

/-- The literal, as the reader hands it to the formatter. -/
def Value.nullText (refMode : Bool) (mem : Memory) : Value :=
  if refMode then .view mem.nullView else .string nullptrText

/-- **The `i`-th argument is logged as the text `(nullptr)`**: the message is the one of a pointer
to that text, and the text is what the reader takes off it, unless the message is given up. -/
structure SerializesAsNullText {kCapacity : Size} (refMode : Bool) (mem : Memory)
    (header : SerializedArgsHeader) (args_ : SerializedArgs kCapacity) (args : List Arg) (i : ℕ)
    (out : SerializedArgs kCapacity) : Prop where
  serialized : serialize refMode mem header args_ args = some out
  asText : serialize refMode mem header args_
    (args.modify i fun a => { a with view := some mem.nullView }) = some out
  read : out.size ≠ 0#64 → ∃ values,
    readAll (readArg refMode) (out.bytes.drop sizeofHeader.toNat) (args.map Arg.type) 0
      = some values ∧ (values[i]?).map Prod.fst = some (Value.nullText refMode mem)

/-! ## What is made of them -/

section

variable {mem : Memory} {a : Arg}

/-- The length of a null pointer is taken. -/
theorem toStringView_of_isNull (h : a.IsNull) : a.toStringView mem = none := by
  rw [Arg.toStringView_eq, h.null]

theorem addDynamicStringLength_of_isNull (h : a.IsNull) (dest : Size) :
    addDynamicStringLength mem dest a = none := by
  rw [addDynamicStringLength, CppType.isStringLike_decay,
    if_pos (CppType.isStringLike_of_isCharPointer h.pointer), toStringView_of_isNull h]
  rfl

theorem writeArg_of_isNull (h : a.IsNull) (refMode : Bool) {n : ℕ} (pos : Cursor Byte n) :
    writeArg refMode mem pos a = none := by
  rw [writeArg, CppType.isStringLike_decay,
    if_pos (CppType.isStringLike_of_isCharPointer h.pointer), toStringView_of_isNull h]
  rfl

/-- **No message comes of a null pointer**, in either mode. -/
theorem serialize_of_isNull {kCapacity : Size} {args : List Arg} (ha : a ∈ args) (h : a.IsNull)
    (refMode : Bool) (header : SerializedArgsHeader) (args_ : SerializedArgs kCapacity) :
    serialize refMode mem header args_ args = none := by
  rw [serialize]
  cases refMode with
  | true =>
    simp only [if_true]
    refine Option.bind_eq_none_iff.mpr fun pos _ => ?_
    rw [foldlM_eq_none_of_mem ha (writeArg_of_isNull h true), Option.map_none]
  | false =>
    simp only [Bool.false_eq_true, if_false]
    rw [foldlM_eq_none_of_mem ha (addDynamicStringLength_of_isNull h), Option.bind_none]

end

/-- **A null pointer is never logged as a text**, whatever the other arguments and wherever it
stands among them. -/
theorem not_serializesAsNullText {kCapacity : Size} (refMode : Bool) (mem : Memory)
    (header : SerializedArgsHeader) (args_ : SerializedArgs kCapacity) (args : List Arg) (i : ℕ)
    (a : Arg) (hi : args[i]? = some a) (h : a.IsNull) :
    ¬∃ out, SerializesAsNullText refMode mem header args_ args i out := by
  rintro ⟨out, hout⟩
  have hnone := @serialize_of_isNull mem a _ _ (List.mem_of_getElem? hi) h refMode header args_
  exact absurd (hout.serialized.symm.trans hnone) (Option.some_ne_none out)

/-- A null pointer behind a string, in reference mode. -/
theorem not_serializesAsNullText_second : ¬∃ out,
    SerializesAsNullText true .blank ⟨1#64, 2#64⟩ (.zeroed 2048#64)
      [.ofView ⟨1#64, 3#64⟩, ⟨.charPtr, 16#64, none⟩] 1 out :=
  not_serializesAsNullText true .blank ⟨1#64, 2#64⟩ (.zeroed 2048#64) _ 1
    ⟨.charPtr, 16#64, none⟩ rfl ⟨rfl, rfl⟩

/-- A null pointer alone, in value mode. -/
theorem not_serializesAsNullText_single : ¬∃ out,
    SerializesAsNullText false .blank ⟨1#64, 2#64⟩ (.zeroed 2048#64) [⟨.charPtr, 16#64, none⟩] 0
      out := by
  rintro ⟨out, hout⟩
  have hnone := hout.serialized
  cases hnone

end Femtolog
