import Femtolog.Foundations.Encoding
import Femtolog.Queue.Basic

/-!
# Serialize/CppType — argument types, and arguments in memory

The serializer chooses how it writes an argument by the argument's static type: `std::decay_t`, and
then the traits of `ArgTypeInfo` (`isStringLike`) and `std::is_trivially_copyable_v`.  An argument
itself is a reference to an object in memory; a string-like one converts to a `std::string_view`,
except for a null pointer to `char`, which has no length.
-/

namespace Femtolog

/-! ## Types -/

/-- The type `T` of an argument, without `const`. -/
inductive CppType
  /-- `char[n]` -/
  | charArray (n : ℕ)
  /-- `char*` -/
  | charPtr
  | stdString
  | stringView
  /-- any other scalar or class type: whether it converts to `std::string_view`, whether it is
  trivially copyable, and its `sizeof` -/
  | object (toView triviallyCopyable : Bool) (size : ℕ)
  /-- `T&` -/
  | lref (t : CppType)
  deriving DecidableEq

namespace CppType

/-- `std::decay_t`. -/
def decay : CppType → CppType
  | lref t => decay t
  | charArray _ => charPtr
  | t => t

/-- `std::is_convertible_v<T, std::string_view>`. -/
def convertsToView : CppType → Bool
  | charArray _ | charPtr | stdString | stringView => true
  | object toView _ _ => toView
  | lref t => convertsToView t

/-- `std::is_trivially_copyable_v`. -/
def isTriviallyCopyable : CppType → Bool
  | charArray _ | charPtr | stringView => true
  | stdString | lref _ => false
  | object _ triviallyCopyable _ => triviallyCopyable

/-- `sizeof`. -/
def sizeof : CppType → ℕ
  | charArray n => n
  | charPtr => 8
  | stdString => 32
  | stringView => 16
  | object _ _ size => size
  | lref t => sizeof t

/-- `std::is_array_v<T> && std::is_same_v<std::remove_extent_t<T>, char>`. -/
def isArrayOfChar : CppType → Bool
  | charArray _ => true
  | _ => false

/-- `IsFixedStringTrait`, which matches a reference to an array. -/
def isFixedStringTrait : CppType → Bool
  | lref (charArray _) => true
  | _ => false

/-- `ArgTypeInfo::is_char_array`. -/
def isCharArray (t : CppType) : Bool := isArrayOfChar t.decay

/-- `ArgTypeInfo::is_static_string`. -/
def isStaticString (t : CppType) : Bool := isFixedStringTrait t.decay

/-- `ArgTypeInfo::is_dynamic_string`. -/
def isDynamicString (t : CppType) : Bool :=
  (convertsToView t.decay || t.decay == stdString || t.decay == stringView || isCharArray t)
    && !isStaticString t

/-- `ArgTypeInfo::is_string_like`. -/
def isStringLike (t : CppType) : Bool := isDynamicString t || isStaticString t

/-- Decay leaves neither a reference nor an array. -/
theorem decay_eq (t : CppType) :
    t.decay = charPtr ∨ t.decay = stdString ∨ t.decay = stringView ∨
      ∃ toView triviallyCopyable size, t.decay = object toView triviallyCopyable size := by
  induction t with
  | charArray n => exact .inl rfl
  | charPtr => exact .inl rfl
  | stdString => exact .inr (.inl rfl)
  | stringView => exact .inr (.inr (.inl rfl))
  | object toView triviallyCopyable size => exact .inr (.inr (.inr ⟨_, _, _, rfl⟩))
  | lref t ih => exact ih

@[simp] theorem decay_decay (t : CppType) : t.decay.decay = t.decay := by
  rcases t.decay_eq with h | h | h | ⟨_, _, _, h⟩ <;> rw [h] <;> rfl

@[simp] theorem isStringLike_decay (t : CppType) : t.decay.isStringLike = t.isStringLike := by
  simp only [isStringLike, isDynamicString, isStaticString, isCharArray, decay_decay]

/-- **After decay nothing is an array**, so the branch of `to_string_view` for arrays is dead. -/
theorem isCharArray_eq_false (t : CppType) : t.isCharArray = false := by
  rcases t.decay_eq with h | h | h | ⟨_, _, _, h⟩ <;> rw [isCharArray, h] <;> rfl

end CppType

/-! ## Memory -/

/-- A `std::string_view`. -/
structure StringView where
  data : Size
  size : Size
  deriving DecidableEq

/-- The literal `"(nullptr)"`. -/
def nullptrText : List Byte := [0x28, 0x6e, 0x75, 0x6c, 0x6c, 0x70, 0x74, 0x72, 0x29]

/-- The memory of the process; the literal of `to_string_view` lies at `nullText`. -/
structure Memory where
  byte : Size → Byte
  nullText : Size
  nullText_bytes : ((List.range 9).map fun i => byte (nullText + BitVec.ofNat 64 i)) = nullptrText

namespace Memory

/-- A memory with nothing in it but the literal. -/
def blank : Memory where
  byte addr := nullptrText.getD addr.toNat 0
  nullText := 0#64
  nullText_bytes := by decide

/-- The `n` bytes from `addr` on. -/
def read (mem : Memory) (addr : Size) (n : ℕ) : List Byte :=
  (List.range n).map fun i => mem.byte (addr + BitVec.ofNat 64 i)

@[simp] theorem length_read (mem : Memory) (addr : Size) (n : ℕ) :
    (mem.read addr n).length = n := by
  rw [read, List.length_map, List.length_range]

/-- The bytes of a view. -/
def text (mem : Memory) (view : StringView) : List Byte := mem.read view.data view.size.toNat

@[simp] theorem length_text (mem : Memory) (view : StringView) :
    (mem.text view).length = view.size.toNat := mem.length_read _ _

end Memory

/-! ## Arguments -/

/-- An argument of a log call: its type, the address of the object it refers to, and the
`std::string_view` it converts to.  A null pointer to `char` has none. -/
structure Arg where
  type : CppType
  addr : Size
  view : Option StringView

/-- A `std::string_view` argument. -/
def Arg.ofView (view : StringView) : Arg := ⟨.stringView, 0#64, some view⟩

/-- What the reader hands to the formatter. -/
inductive Value
  /-- a `std::string_view` on the caller's string -/
  | view (view : StringView)
  /-- a `std::string` with these bytes -/
  | string (text : List Byte)
  /-- a trivially copyable value with this representation -/
  | copy (bytes : List Byte)
  /-- the object at this address -/
  | object (addr : Size)
  deriving DecidableEq

namespace Arg

/-- `to_string_view`; undefined where it takes the length of a null pointer. -/
def toStringView (mem : Memory) (value : Arg) : Option StringView :=
  if value.type.isCharArray then
    match value.view with
    | none => some ⟨mem.nullText, 9#64⟩
    | some view => some view
  else value.view

theorem toStringView_eq (mem : Memory) (a : Arg) : a.toStringView mem = a.view := by
  rw [toStringView, CppType.isCharArray_eq_false]
  rfl

/-- The argument as the formatter should see it: a string as its bytes, or by reference as a view
of the same bytes; a trivially copyable value as its representation; any other object as itself. -/
def original (refMode : Bool) (mem : Memory) (a : Arg) : Option Value :=
  if a.type.isStringLike then
    a.view.map fun view => if refMode then .view view else .string (mem.text view)
  else if a.type.decay.isTriviallyCopyable then some (.copy (mem.read a.addr a.type.decay.sizeof))
  else some (.object a.addr)

end Arg

end Femtolog
