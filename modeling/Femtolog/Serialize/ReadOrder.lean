import Femtolog.Serialize.ValueMode

/-!
# Serialize/ReadOrder — more than four arguments, read in any order

For five arguments or more `format_directly` reads each argument in a lambda of its own, all of them
arguments of one call of `std::make_tuple`; each moves the shared offset on, and the compiler may
run them in any order.  In value mode a lambda gets the value of its argument exactly where the
record of the argument lies (`reads_exactly_record`), so the tuple is the original one exactly if
the records, one after the other in the order of evaluation, are the payload
(`format_directly_tuple_iff`).
-/

namespace Femtolog

/-! ## One argument -/

/-- A string is read exactly where its size and its text lie. -/
theorem size_of_readArg {t : CppType} (ht : t.isStringLike = true) {mem : Memory}
    {view : StringView} {data : List Byte} {offset e : ℕ}
    (h : readArg false t data offset = some (.string (mem.text view), e)) :
    window data offset 8 = some (wordBytes view.size)
      ∧ window data (offset + 8) view.size.toNat = some (mem.text view)
      ∧ e = offset + 8 + view.size.toNat := by
  rw [readArg, CppType.isStringLike_decay, if_pos ht, if_neg Bool.false_ne_true] at h
  obtain ⟨w, hw, hrest⟩ := Option.bind_eq_some_iff.mp h
  have hw8 : w.length = 8 := by
    rw [window] at hw
    split_ifs at hw with hle
    rw [← Option.some.inj hw, length_slice hle]
  have hsize : ofWordBytes w = view.size → window data offset 8 = some (wordBytes view.size) := by
    intro heq
    rw [hw, ← heq, wordBytes_ofWordBytes hw8]
  dsimp only at hrest
  split_ifs at hrest with hpos
  · obtain ⟨str, hstr, heq⟩ := Option.map_eq_some_iff.mp hrest
    obtain ⟨hvalue, rfl⟩ := Prod.mk.inj heq
    obtain rfl : str = mem.text view := Value.string.inj hvalue
    have hlen : (ofWordBytes w).toNat = view.size.toNat := by
      have hlength : (mem.text view).length = (ofWordBytes w).toNat := by
        rw [window] at hstr
        split_ifs at hstr with hle
        rw [← Option.some.inj hstr, length_slice hle]
      rw [← hlength, Memory.length_text]
    rw [hlen] at hstr ⊢
    exact ⟨hsize (BitVec.eq_of_toNat_eq hlen), hstr, rfl⟩
  · obtain ⟨hvalue, rfl⟩ := Prod.mk.inj (Option.some.inj hrest)
    have htext : mem.text view = [] := (Value.string.inj hvalue).symm
    have hlen : view.size.toNat = 0 := by rw [← Memory.length_text mem view, htext]; rfl
    have hzero : (ofWordBytes w).toNat = 0 := by
      have := BitVec.lt_def.not.mp hpos
      rw [BitVec.toNat_zero] at this
      omega
    refine ⟨hsize (BitVec.eq_of_toNat_eq (hzero.trans hlen.symm)), ?_, by rw [hzero, hlen]⟩
    rw [hlen, htext, window, if_pos (le_of_window hw), slice_zero]

/-- **In value mode a record is read exactly where it lies.** -/
theorem reads_exactly_record {mem : Memory} {a : Arg} {r : List Byte} {v : Value}
    (hr : a.record false mem = some r) (hv : a.handed false mem = some v) :
    ReadsExactly (readArg false) a.type r v := by
  intro data offset e
  constructor
  · intro h
    simp only [Arg.record, Arg.handed, Bool.false_eq_true, if_false] at hr hv
    split_ifs at hr hv with hs ht
    · obtain ⟨view, hview, rfl⟩ := Option.map_eq_some_iff.mp hr
      rw [hview, Option.map_some] at hv
      obtain rfl := Option.some.inj hv
      obtain ⟨hsize, htext, rfl⟩ := size_of_readArg hs h
      rw [window_append_iff, length_wordBytes, Memory.length_text]
      refine ⟨⟨hsize, htext⟩, ?_⟩
      rw [List.length_append, length_wordBytes, Memory.length_text, Nat.add_assoc]
    · obtain rfl := Option.some.inj hr
      obtain rfl := Option.some.inj hv
      rw [readArg, CppType.isStringLike_decay, if_neg hs, if_pos ht] at h
      obtain ⟨value, hvalue, heq⟩ := Option.map_eq_some_iff.mp h
      obtain ⟨hcopy, rfl⟩ := Prod.mk.inj heq
      rw [Memory.length_read, ← Value.copy.inj hcopy]
      exact ⟨hvalue, rfl⟩
  · rintro ⟨hwindow, rfl⟩
    obtain ⟨before, after, rfl, rfl⟩ := exists_of_window hwindow
    exact reads_record hr hv before after

/-! ## The tuple -/

/-- **The tuple holds the right values** exactly if the lambdas get, one after the other, the values
of their own arguments. -/
theorem makeTuple_eq_some_iff {refMode : Bool} {o : EvalOrder} {types ks : List CppType}
    {vs ws : List Value} {data : List Byte} (hlen : vs.length = types.length)
    (hks : ((o.order types.length).mapM fun i => types[i]?) = some ks)
    (hws : ((o.order types.length).mapM fun i => vs[i]?) = some ws) :
    makeTuple refMode o types data = some vs
      ↔ (readAll (readArg refMode) data ks 0).map (List.map Prod.fst) = some ws := by
  have hnodup : (o.order types.length).Nodup := (o.perm _).nodup_iff.mpr List.nodup_range
  have hlength : (o.order types.length).length = types.length := by
    rw [(o.perm _).length_eq, List.length_range]
  rw [makeTuple, hks, Option.bind_some]
  cases hread : readAll (readArg refMode) data ks 0 with
  | none => exact iff_of_false (Option.some_ne_none _).symm (Option.some_ne_none _).symm
  | some rs =>
    rw [Option.bind_some, Option.map_some, Option.some_inj]
    have hlookup : ∀ i, ws[i]? = ((o.order types.length)[i]?).bind fun i => vs[i]? :=
      getElem?_of_mapM hws
    constructor
    · intro h
      refine List.ext_getElem? fun k => ?_
      rw [hlookup, List.getElem?_map]
      by_cases hk : k < (o.order types.length).length
      · have hmem := List.getElem_mem hk
        have hrange := (o.perm _).mem_iff.mp hmem
        have hvalue := getElem?_of_mapM h (o.order types.length)[k]
        rw [List.getElem?_range (List.mem_range.mp hrange), Option.bind_some,
          hnodup.idxOf_getElem] at hvalue
        rw [List.getElem?_eq_getElem hk, Option.bind_some, hvalue]
      · have hrs : rs.length = (o.order types.length).length := by
          rw [length_of_readAll hread, ← (mapM_eq_some_iff.mp hks).length_eq]
        rw [List.getElem?_eq_none (by omega), List.getElem?_eq_none (by omega)]
        rfl
    · rintro rfl
      refine mapM_range hlen.symm fun i hi => ?_
      have hmem : i ∈ o.order types.length := (o.perm _).mem_iff.mpr (List.mem_range.mpr hi)
      have hidx := hlookup ((o.order types.length).idxOf i)
      rw [List.getElem?_eq_getElem (List.idxOf_lt_length_of_mem hmem), List.getElem_idxOf,
        Option.bind_some, List.getElem?_map] at hidx
      exact hidx

/-! ## A message -/

/-- The records of the arguments, one after the other in the order `is`. -/
def recordsIn (mem : Memory) (args : List Arg) (is : List ℕ) : Option (List Byte) :=
  (is.mapM fun i => (args[i]?).bind (Arg.record false mem)).map List.flatten

section Message

variable {mem : Memory} {args : List Arg} {records : List (List Byte × Value)}

/-- Every record of a message is read exactly where it lies. -/
theorem Records.reads_exactly (h : Records false mem args records) :
    List.Forall₂ (fun t r => ReadsExactly (readArg false) t r.1 r.2) (args.map Arg.type)
      records := by
  have hwritten := List.forall₂_map_right_iff.mp (mapM_eq_some_iff.mp h.written)
  have hhanded := List.forall₂_map_right_iff.mp (mapM_eq_some_iff.mp h.handed)
  rw [List.forall₂_map_left_iff]
  exact hwritten.mp (fun _ _ hr hv => reads_exactly_record hr hv) hhanded

/-- The records of arguments in an order are those of the arguments ordered so. -/
theorem recordsIn_eq {is : List ℕ} {pargs : List Arg} {precords : List (List Byte × Value)}
    (hpargs : (is.mapM fun i => args[i]?) = some pargs)
    (h : Records false mem pargs precords) :
    recordsIn mem args is = some (precords.map Prod.fst).flatten := by
  rw [recordsIn, mapM_bind hpargs, h.written, Option.map_some]

/-- The records are of the same length together, in whatever order. -/
theorem Records.length_eq_of_perm {pargs : List Arg} {precords : List (List Byte × Value)}
    (h : Records false mem args records) (hp : Records false mem pargs precords)
    (hperm : pargs.Perm args) :
    (precords.map Prod.fst).flatten.length = (records.map Prod.fst).flatten.length := by
  have hsize : serializedSize false pargs = serializedSize false args := by
    rw [serializedSize, serializedSize, (hperm.map _).sum_eq]
  have := length_records hp.written
  have := length_records h.written
  omega

/-- A window on the start of a payload shows a text of its length only if it is the payload. -/
theorem window_payload_iff {payload rest xs : List Byte} (hlength : xs.length = payload.length) :
    window (payload ++ rest) 0 xs.length = some xs ↔ xs = payload := by
  have hfirst : window ([] ++ (payload ++ rest)) 0 payload.length = some payload :=
    window_eq rfl rfl
  rw [List.nil_append] at hfirst
  rw [hlength, hfirst, Option.some_inj]
  exact eq_comm

/-- **The payload of a message gives the original tuple** exactly if it is also what the records
make in the order in which they are read. -/
theorem Records.makeTuple_iff (h : Records false mem args records)
    (hstr : ∀ a ∈ args, a.IsString) (hsup : ∀ a ∈ args, a.Supported false) (o : EvalOrder)
    (rest : List Byte) :
    makeTuple false o (args.map Arg.type) ((records.map Prod.fst).flatten ++ rest)
        = some (records.map Prod.snd)
      ↔ recordsIn mem args (o.order args.length)
        = recordsIn mem args (List.range args.length) := by
  have hperm := o.perm args.length
  -- the arguments in the order of evaluation, and their records
  obtain ⟨pargs, hpargs⟩ : ∃ pargs, ((o.order args.length).mapM fun i => args[i]?) = some pargs :=
    exists_mapM fun i hi => List.mem_range.mp (hperm.mem_iff.mp hi)
  have hpperm : pargs.Perm args := perm_of_mapM hperm hpargs
  obtain ⟨precords, hprecords⟩ := exists_records false mem
    (fun a ha => hstr a (hpperm.mem_iff.mp ha)) (fun a ha => hsup a (hpperm.mem_iff.mp ha))
  have hargs : ((List.range args.length).mapM fun i => args[i]?) = some args :=
    mapM_range rfl fun _ _ => rfl
  -- the types and the values in the order of evaluation
  have hks : ((o.order (args.map Arg.type).length).mapM fun i => (args.map Arg.type)[i]?)
      = some (pargs.map Arg.type) := by
    simp only [List.length_map, List.getElem?_map]
    refine mapM_eq_some_iff.mpr (List.forall₂_map_right_iff.mpr ?_)
    exact (mapM_eq_some_iff.mp hpargs).imp fun i a ha => by rw [ha]; rfl
  have hws : ((o.order (args.map Arg.type).length).mapM fun i => (records.map Prod.snd)[i]?)
      = some (precords.map Prod.snd) := by
    simp only [List.length_map, getElem?_of_mapM h.handed, mapM_bind hpargs, hprecords.handed]
  have hlen : (records.map Prod.snd).length = (args.map Arg.type).length := by
    rw [List.length_map, List.length_map, ← h.reads.length_eq, List.length_map]
  rw [makeTuple_eq_some_iff hlen hks hws,
    map_fst_readAll_iff hprecords.reads_exactly (Nat.zero_le _),
    window_payload_iff (h.length_eq_of_perm hprecords hpperm), recordsIn_eq hargs h,
    recordsIn_eq hpargs hprecords, Option.some_inj]

end Message

/-! ## `format_directly` -/

/-- Five arguments or more are read by the lambdas. -/
theorem formatDirectly_of_five_le {refMode : Bool} {β : Type} (o : EvalOrder)
    {types : List CppType} (hn : 5 ≤ types.length) (fmtFunction : List Value → β)
    (data : List Byte) :
    formatDirectly refMode o types fmtFunction data
      = (makeTuple refMode o types data).map fmtFunction := by
  rw [formatDirectly.eq_def]
  split
  case h_5 => rfl
  all_goals
    simp only [List.length_cons, List.length_nil] at hn
    omega

/-- **Five arguments or more reach the formatter as they are** exactly if their records, one after
the other in the order of evaluation, are the payload. -/
theorem format_directly_tuple_iff {kCapacity : Size} {mem : Memory} {args : List Arg}
    {header : SerializedArgsHeader} {args_ out : SerializedArgs kCapacity}
    (hn : 5 ≤ args.length) (hc : StaticAsserts kCapacity false (args.map Arg.type))
    (hstr : ∀ a ∈ args, a.IsString) (hout : serialize false mem header args_ args = some out)
    (hsize : out.size ≠ 0#64) (o : EvalOrder) (rest : List Byte) :
    formatDirectly false o (args.map Arg.type) id (out.bytes.drop 16 ++ rest)
        = args.mapM (Arg.original false mem)
      ↔ recordsIn mem args (o.order args.length)
        = recordsIn mem args (List.range args.length) := by
  have hsup : ∀ a ∈ args, a.Supported false := fun a ha => hc.supported_arg ha
  obtain ⟨records, hrecords⟩ := exists_records false mem hstr hsup
  have hpayload : out.bytes.drop 16 = (records.map Prod.fst).flatten := by
    obtain ⟨rs, hrs, hbytes⟩ := bytes_of_serialize hstr hout hsize
    rw [hrecords.written] at hrs
    rw [hbytes, Option.some.inj hrs]
    exact List.drop_left' (SerializedArgsHeader.length_bytes header)
  have horiginals : args.mapM (Arg.original false mem) = some (records.map Prod.snd) := by
    rw [← hrecords.handed]
    exact mapM_congr fun a ha => (Arg.handed_eq_original (hsup a ha)).symm
  rw [hpayload, horiginals, formatDirectly_of_five_le o (by rwa [List.length_map]),
    Option.map_id_fun, id]
  exact hrecords.makeTuple_iff hstr hsup o rest

/-- Five objects of one byte each. -/
def fiveBytes : List Arg :=
  [0#64, 1#64, 2#64, 3#64, 4#64].map fun addr => ⟨.object false true 1, addr, none⟩

/-- Their message. -/
def fiveBytesMessage : SerializedArgs 64#64 :=
  (serialize false .blank ⟨1#64, 2#64⟩ (.zeroed 64#64) fiveBytes).get (by decide)

theorem serialize_fiveBytes :
    serialize false .blank ⟨1#64, 2#64⟩ (.zeroed 64#64) fiveBytes = some fiveBytesMessage :=
  (Option.some_get _).symm

theorem format_directly_tuple_iff_five :
    formatDirectly false .rightToLeft (fiveBytes.map Arg.type) id
        (fiveBytesMessage.bytes.drop 16 ++ [])
      = fiveBytes.mapM (Arg.original false .blank)
    ↔ recordsIn .blank fiveBytes (EvalOrder.rightToLeft.order 5)
      = recordsIn .blank fiveBytes (List.range 5) :=
  format_directly_tuple_iff (by decide) ⟨by decide, by decide, by decide, by decide⟩ (by decide)
    serialize_fiveBytes (by decide) .rightToLeft []

/-- A compiler that evaluates from right to left hands them over in reverse. -/
theorem format_directly_reversed : ¬∀ (kCapacity : Size) (mem : Memory) (args : List Arg)
    (header : SerializedArgsHeader) (args_ out : SerializedArgs kCapacity),
    5 ≤ args.length → StaticAsserts kCapacity false (args.map Arg.type) →
    (∀ a ∈ args, a.IsString) → serialize false mem header args_ args = some out →
    out.size ≠ 0#64 → ∀ (o : EvalOrder) (rest : List Byte),
    formatDirectly false o (args.map Arg.type) id (out.bytes.drop 16 ++ rest)
      = args.mapM (Arg.original false mem) := by
  intro hall
  have hreversed := hall 64#64 .blank fiveBytes ⟨1#64, 2#64⟩ (.zeroed 64#64) fiveBytesMessage
    (by decide) ⟨by decide, by decide, by decide, by decide⟩ (by decide) serialize_fiveBytes
    (by decide) .rightToLeft []
  revert hreversed
  decide

end Femtolog
