import Femtolog.Serialize.ArgsSerializer
import Femtolog.Serialize.ArgsDeserializer

/-!
# Serialize/RoundTrip — what the reader makes of a serialized message

The reader takes off the payload, one after the other, the records the writers put there
(`reads_record`), and makes of each the value `Arg.handed`.  Where that is the original argument the
message `RoundTrips`.  The two modes are settled in `ValueMode` and `ReferenceMode`.
-/

namespace Femtolog

/-! ## One record -/

/-- What the reader makes of an argument's record.  A record that stands for an object is read as
the object's address. -/
def Arg.handed (refMode : Bool) (mem : Memory) (a : Arg) : Option Value :=
  if a.type.isStringLike then
    a.view.map fun view => if refMode then .view view else .string (mem.text view)
  else if a.type.decay.isTriviallyCopyable then some (.copy (mem.read a.addr a.type.decay.sizeof))
  else some (.object (ofWordBytes (mem.read a.addr 8)))

/-- The size of a string and its text are read back, wherever they lie. -/
theorem reads_string {t : CppType} (ht : t.isStringLike = true) (mem : Memory) (view : StringView) :
    Reads (readArg false) t (wordBytes view.size ++ mem.text view) (.string (mem.text view)) := by
  intro before after
  have hsize : window (before ++ ((wordBytes view.size ++ mem.text view) ++ after)) before.length 8
      = some (wordBytes view.size) := by
    rw [List.append_assoc]
    exact window_eq rfl (length_wordBytes _).symm
  have htext : window (before ++ ((wordBytes view.size ++ mem.text view) ++ after))
      (before.length + 8) view.size.toNat = some (mem.text view) := by
    rw [List.append_assoc, ← List.append_assoc]
    exact window_eq (by rw [List.length_append, length_wordBytes]) (mem.length_text view).symm
  have hend : before.length + 8 + view.size.toNat
      = before.length + (wordBytes view.size ++ mem.text view).length := by
    rw [List.length_append, length_wordBytes, Memory.length_text, Nat.add_assoc]
  rw [readArg, CppType.isStringLike_decay, if_pos ht, if_neg Bool.false_ne_true, hsize,
    Option.bind_some, ofWordBytes_wordBytes, ← hend]
  dsimp only
  split_ifs with hpos
  · rw [htext, Option.map_some]
  · have hzero : view.size = 0#64 := by bv_omega
    have hempty : mem.text view = [] := by
      rw [← List.length_eq_zero_iff, Memory.length_text, hzero, BitVec.toNat_zero]
    rw [hempty]

/-- A view is read back, wherever it lies. -/
theorem reads_view {t : CppType} (ht : t.isStringLike = true) (view : StringView) :
    Reads (readArg true) t (wordBytes view.data ++ wordBytes view.size) (.view view) := by
  intro before after
  have hdata : window (before ++ ((wordBytes view.data ++ wordBytes view.size) ++ after))
      before.length 8 = some (wordBytes view.data) := by
    rw [List.append_assoc]
    exact window_eq rfl (length_wordBytes _).symm
  have hsize : window (before ++ ((wordBytes view.data ++ wordBytes view.size) ++ after))
      (before.length + 8) 8 = some (wordBytes view.size) := by
    rw [List.append_assoc, ← List.append_assoc]
    exact window_eq (by rw [List.length_append, length_wordBytes]) (length_wordBytes _).symm
  rw [readArg, CppType.isStringLike_decay, if_pos ht, if_pos rfl, hdata, Option.bind_some, hsize,
    Option.map_some, ofWordBytes_wordBytes, ofWordBytes_wordBytes, List.length_append,
    length_wordBytes, length_wordBytes, Nat.add_assoc]

/-- **The reader reads the record of an argument**, wherever it lies. -/
theorem reads_record {refMode : Bool} {mem : Memory} {a : Arg} {r : List Byte} {v : Value}
    (hr : a.record refMode mem = some r) (hv : a.handed refMode mem = some v) :
    Reads (readArg refMode) a.type r v := by
  rw [Arg.record] at hr
  rw [Arg.handed] at hv
  split_ifs at hr hv with hs hmode ht hmode'
  · obtain ⟨view, hview, rfl⟩ := Option.map_eq_some_iff.mp hr
    rw [hview, Option.map_some] at hv
    obtain rfl := Option.some.inj hv
    exact hmode ▸ reads_view hs view
  · obtain ⟨view, hview, rfl⟩ := Option.map_eq_some_iff.mp hr
    rw [hview, Option.map_some] at hv
    obtain rfl := Option.some.inj hv
    rw [Bool.not_eq_true] at hmode
    exact hmode ▸ reads_string hs mem view
  · obtain rfl := Option.some.inj hr
    obtain rfl := Option.some.inj hv
    intro before after
    rw [readArg, CppType.isStringLike_decay, if_neg hs, if_pos ht,
      window_eq rfl (mem.length_read _ _).symm, Option.map_some, Memory.length_read]
  · obtain rfl := Option.some.inj hr
    obtain rfl := Option.some.inj hv
    intro before after
    rw [readArg, CppType.isStringLike_decay, if_neg hs, if_neg ht, if_pos hmode',
      window_eq rfl (mem.length_read _ _).symm, Option.map_some, Memory.length_read]

/-! ## A message -/

/-- The arguments of a message as records: the bytes written for each, and what is made of them. -/
structure Records (refMode : Bool) (mem : Memory) (args : List Arg)
    (records : List (List Byte × Value)) : Prop where
  written : args.mapM (Arg.record refMode mem) = some (records.map Prod.fst)
  handed : args.mapM (Arg.handed refMode mem) = some (records.map Prod.snd)
  reads : List.Forall₂ (fun t r => Reads (readArg refMode) t r.1 r.2) (args.map Arg.type) records

/-- The argument is of a type the serializer supports. -/
def Arg.Supported (refMode : Bool) (a : Arg) : Prop :=
  a.type.isStringLike = true ∨ a.type.decay.isTriviallyCopyable = true ∨ refMode = true

theorem Arg.exists_record {refMode : Bool} (mem : Memory) {a : Arg} (hstr : a.IsString)
    (hsup : a.Supported refMode) :
    ∃ r v, a.record refMode mem = some r ∧ a.handed refMode mem = some v := by
  rw [Arg.record, Arg.handed]
  split_ifs with hs hmode ht hmode'
  · obtain ⟨view, hview⟩ := Option.isSome_iff_exists.mp (hstr hs)
    exact ⟨_, _, by rw [hview]; rfl, by rw [hview]; rfl⟩
  · obtain ⟨view, hview⟩ := Option.isSome_iff_exists.mp (hstr hs)
    exact ⟨_, _, by rw [hview]; rfl, by rw [hview]; rfl⟩
  · exact ⟨_, _, rfl, rfl⟩
  · exact ⟨_, _, rfl, rfl⟩
  · exact absurd hsup (by simp [Arg.Supported, hs, ht, hmode'])

/-- **The arguments of a call have records**: strings that are no null pointers, of supported
types. -/
theorem exists_records (refMode : Bool) (mem : Memory) {args : List Arg}
    (hstr : ∀ a ∈ args, a.IsString) (hsup : ∀ a ∈ args, a.Supported refMode) :
    ∃ records, Records refMode mem args records := by
  induction args with
  | nil => exact ⟨[], rfl, rfl, .nil⟩
  | cons a args ih =>
    obtain ⟨records, hrs, hvs, hreads⟩ := ih (fun b hb => hstr b (List.mem_cons_of_mem a hb))
      (fun b hb => hsup b (List.mem_cons_of_mem a hb))
    obtain ⟨r, v, hr, hv⟩ := Arg.exists_record mem (hstr a List.mem_cons_self)
      (hsup a List.mem_cons_self)
    refine ⟨(r, v) :: records, ?_, ?_, .cons (reads_record hr hv) hreads⟩
    · exact mapM_eq_some_iff.mpr (.cons hr (mapM_eq_some_iff.mp hrs))
    · exact mapM_eq_some_iff.mpr (.cons hv (mapM_eq_some_iff.mp hvs))

/-- **`out` is a message that gives `args` back** — its size is the size of the message, and it was
written over exactly that many bytes of `args_`; the reader, at the start of the payload and from
left to right, takes off it the original arguments, each next offset the start of the next record;
and these are what the format function gets. -/
structure RoundTrips {kCapacity : Size} (refMode : Bool) (mem : Memory)
    (header : SerializedArgsHeader) (args_ : SerializedArgs kCapacity) (args : List Arg)
    (out : SerializedArgs kCapacity) (records : List (List Byte × Value)) : Prop where
  serialized : serialize refMode mem header args_ args = some out
  size : out.size.toNat = serializedSize refMode args
  written : args.mapM (Arg.record refMode mem) = some (records.map Prod.fst)
  buffer : out.buffer = header.bytes ++ (records.map Prod.fst).flatten
    ++ args_.buffer.drop (serializedSize refMode args)
  originals : args.mapM (Arg.original refMode mem) = some (records.map Prod.snd)
  read : ∀ rest, readAll (readArg refMode) ((records.map Prod.fst).flatten ++ rest)
    (args.map Arg.type) 0 = some (laidOut 0 records)
  ends : (laidOut 0 records).getLast?.map Prod.snd = some (serializedSize refMode args - 16)
  fastPath : ∀ (o : EvalOrder) (β : Type) (fmtFunction : List Value → β) (data : List Byte),
    deserializeAndFormat refMode o (args.map Arg.type) fmtFunction data
      = formatDirectly refMode o (args.map Arg.type) fmtFunction data
  formatted : ∀ (o : EvalOrder) (β : Type) (fmtFunction : List Value → β) (rest : List Byte),
    o.InOrder args.length →
    deserializeAndFormat refMode o (args.map Arg.type) fmtFunction
      ((records.map Prod.fst).flatten ++ rest) = some (fmtFunction (records.map Prod.snd))

section Message

variable {refMode : Bool} {mem : Memory} {args : List Arg} {records : List (List Byte × Value)}

/-- What the reader makes of the payload of a message. -/
theorem Records.readAll (h : Records refMode mem args records) (rest : List Byte) :
    Femtolog.readAll (readArg refMode) ((records.map Prod.fst).flatten ++ rest)
      (args.map Arg.type) 0 = some (laidOut 0 records) := readAll_eq h.reads [] rest

/-- **A message in the buffer gives its arguments back**, if the reader makes of every record the
original argument. -/
theorem Records.roundTrips {kCapacity : Size} {header : SerializedArgsHeader}
    {args_ : SerializedArgs kCapacity} (h : Records refMode mem args records)
    (hne : args ≠ [])
    (hserialize : serialize refMode mem header args_ args = args_.filled header
      (records.map Prod.fst) (BitVec.ofNat 64 (serializedSize refMode args)))
    (hfits : serializedSize refMode args ≤ kCapacity.toNat)
    (horiginal : ∀ a ∈ args, a.handed refMode mem = a.original refMode mem) :
    ∃ out, RoundTrips refMode mem header args_ args out records := by
  have hlength := length_records h.written
  obtain ⟨out, hout⟩ := exists_filled header args_ h.written hfits
    (BitVec.ofNat 64 (serializedSize refMode args))
  have hrecords : records ≠ [] := by
    rintro rfl
    exact hne (List.map_eq_nil_iff.mp (List.forall₂_nil_right_iff.mp h.reads))
  refine ⟨out, ?_⟩
  constructor
  case serialized => rw [hserialize, hout]
  case size => exact (filled_spec h.written hout).1
  case written => exact h.written
  case buffer => exact (filled_spec h.written hout).2
  case originals =>
    rw [← h.handed]
    exact mapM_congr fun a ha => (horiginal a ha).symm
  case read => exact h.readAll
  case ends =>
    rw [getLast?_laidOut 0 hrecords, Nat.zero_add, ← hlength, Nat.add_sub_cancel_left]
  case fastPath => exact fun o β fmtFunction data => deserializeAndFormat_eq _ o _ fmtFunction data
  case formatted =>
    intro o β fmtFunction rest ho
    rw [deserializeAndFormat_eq, formatDirectly_eq (by rwa [List.length_map]), h.readAll,
      Option.map_some, map_fst_laidOut]

end Message

end Femtolog
