import Femtolog.Serialize.CppType

/-!
# Serialize/ArgsDeserializer — the type-erased reader

`DeserializeDispatcher<ref_mode, Args...>` reads the arguments of a payload and hands them to the
format function.  A single small value goes through a fast path; up to four arguments are read by
bodies written out for each arity; from five on the reads are the arguments of one call of
`std::make_tuple` that share an offset, and C++ leaves their order open (`EvalOrder`).

`readAll` with `readArg` is what all of these bodies come to when they read from left to right
(`formatDirectly_eq`).
-/

namespace Femtolog

/-! ## One argument -/

/-- `read_arg`; undefined where it reads past the data.  The last branch of the source does not
compile. -/
def readArg (refMode : Bool) (t : CppType) (base : List Byte) (offset : ℕ) : Option (Value × ℕ) :=
  if t.decay.isStringLike then
    if refMode then
      (window base offset 8).bind fun rawPtr =>
      (window base (offset + 8) 8).map fun strLen =>
        (.view ⟨ofWordBytes rawPtr, ofWordBytes strLen⟩, offset + 8 + 8)
    else
      (window base offset 8).bind fun strLen =>
      let strLen := ofWordBytes strLen
      if 0#64 < strLen then
        (window base (offset + 8) strLen.toNat).map fun str =>
          (.string str, offset + 8 + strLen.toNat)
      else some (.string [], offset + 8 + strLen.toNat)
  else if t.decay.isTriviallyCopyable then
    (window base offset t.decay.sizeof).map fun value => (.copy value, offset + t.decay.sizeof)
  else if refMode then
    (window base offset 8).map fun rawAddr => (.object (ofWordBytes rawAddr), offset + 8)
  else none

/-- The reader looks at the decayed type only. -/
theorem readArg_decay (refMode : Bool) (t : CppType) (base : List Byte) (offset : ℕ) :
    readArg refMode t.decay base offset = readArg refMode t base offset := by
  rw [readArg, readArg, CppType.decay_decay]

/-! ## All arguments -/

/-- The order in which a compiler evaluates the arguments of a call of `std::make_tuple`. -/
structure EvalOrder where
  order : ℕ → List ℕ
  perm : ∀ n, (order n).Perm (List.range n)

namespace EvalOrder

def leftToRight : EvalOrder := ⟨List.range, fun _ => .refl _⟩

def rightToLeft : EvalOrder := ⟨fun n => (List.range n).reverse, fun _ => List.reverse_perm _⟩

/-- The compiler reads `n` arguments from left to right. -/
def InOrder (o : EvalOrder) (n : ℕ) : Prop := n ≤ 4 ∨ o.order n = List.range n

end EvalOrder

/-- The `std::make_tuple` call: the lambdas run in the compiler's order and each moves the shared
offset on; position `i` of the tuple is what the lambda of argument `i` returned. -/
def makeTuple (refMode : Bool) (o : EvalOrder) (types : List CppType) (data : List Byte) :
    Option (List Value) :=
  let order := o.order types.length
  (order.mapM fun i => types[i]?).bind fun read =>
  (readAll (readArg refMode) data read 0).bind fun results =>
  (List.range types.length).mapM fun i => (results[order.idxOf i]?).map Prod.fst

variable {β : Type}

/-- `format_directly`. -/
def formatDirectly (refMode : Bool) (o : EvalOrder) (types : List CppType)
    (fmtFunction : List Value → β) (data : List Byte) : Option β :=
  match types with
  | [t0] => do
    let (arg0, _) ← readArg refMode t0 data 0
    return fmtFunction [arg0]
  | [t0, t1] => do
    let (arg0, o0) ← readArg refMode t0 data 0
    let (arg1, _) ← readArg refMode t1 data o0
    return fmtFunction [arg0, arg1]
  | [t0, t1, t2] => do
    let (arg0, o0) ← readArg refMode t0 data 0
    let (arg1, o1) ← readArg refMode t1 data o0
    let (arg2, _) ← readArg refMode t2 data o1
    return fmtFunction [arg0, arg1, arg2]
  | [t0, t1, t2, t3] => do
    let (arg0, o0) ← readArg refMode t0 data 0
    let (arg1, o1) ← readArg refMode t1 data o0
    let (arg2, o2) ← readArg refMode t2 data o1
    let (arg3, _) ← readArg refMode t3 data o2
    return fmtFunction [arg0, arg1, arg2, arg3]
  | _ => (makeTuple refMode o types data).map fmtFunction

/-- `deserialize_and_format_impl`. -/
def deserializeAndFormat (refMode : Bool) (o : EvalOrder) (types : List CppType)
    (fmtFunction : List Value → β) (data : List Byte) : Option β :=
  match types with
  | [t] =>
    if t.decay.isTriviallyCopyable && !t.decay.isStringLike && decide (t.decay.sizeof ≤ 8) then
      (window data 0 t.decay.sizeof).map fun value => fmtFunction [.copy value]
    else formatDirectly refMode o types fmtFunction data
  | _ => formatDirectly refMode o types fmtFunction data

/-! ## The bodies agree -/

/-- **The fast path passes the value the general path does.** -/
theorem deserializeAndFormat_eq (refMode : Bool) (o : EvalOrder) (types : List CppType)
    (fmtFunction : List Value → β) (data : List Byte) :
    deserializeAndFormat refMode o types fmtFunction data
      = formatDirectly refMode o types fmtFunction data := by
  rw [deserializeAndFormat.eq_def]
  split
  · rename_i t
    split_ifs with h
    · simp only [Bool.and_eq_true, Bool.not_eq_true'] at h
      rw [formatDirectly, readArg, if_neg (by rw [h.1.2]; exact Bool.false_ne_true),
        if_pos h.1.1]
      cases window data 0 t.decay.sizeof <;> rfl
    · rfl
  · rfl

/-- **Lambdas that run from left to right read the arguments as they lie.** -/
theorem makeTuple_eq {refMode : Bool} {o : EvalOrder} {types : List CppType}
    (ho : o.order types.length = List.range types.length) (data : List Byte) :
    makeTuple refMode o types data
      = (readAll (readArg refMode) data types 0).map fun rs => rs.map Prod.fst := by
  have htypes : ((List.range types.length).mapM fun i => types[i]?) = some types :=
    mapM_range rfl fun _ _ => rfl
  rw [makeTuple, ho, htypes, Option.bind_some]
  cases h : readAll (readArg refMode) data types 0 with
  | none => rfl
  | some rs =>
    have hlen := length_of_readAll h
    refine mapM_range (by rw [List.length_map, hlen]) fun i hi => ?_
    have hidx : (List.range types.length).idxOf i = i := by
      have := List.nodup_range.idxOf_getElem i (by rwa [List.length_range])
      rwa [List.getElem_range] at this
    rw [hidx, List.getElem?_map]

/-- **Every body reads the arguments in turn**, if the compiler evaluates from left to right where
it has a choice. -/
theorem formatDirectly_eq {refMode : Bool} {o : EvalOrder} {types : List CppType}
    (ho : o.InOrder types.length) (fmtFunction : List Value → β) (data : List Byte) :
    formatDirectly refMode o types fmtFunction data
      = (readAll (readArg refMode) data types 0).map fun rs => fmtFunction (rs.map Prod.fst) := by
  rw [formatDirectly.eq_def]
  split
  -- the bodies written out for one to four arguments
  iterate 4 simp [readAll]
  -- the call of `std::make_tuple`
  rename_i h1 h2 h3 h4
  have hrange : o.order types.length = List.range types.length := by
    rcases ho with hle | hrange
    · -- one to four arguments are the cases above
      have hempty : types = [] := by
        rcases types with _ | ⟨t0, _ | ⟨t1, _ | ⟨t2, _ | ⟨t3, _ | ⟨t4, rest⟩⟩⟩⟩⟩
        · rfl
        · exact absurd rfl (h1 t0)
        · exact absurd rfl (h2 t0 t1)
        · exact absurd rfl (h3 t0 t1 t2)
        · exact absurd rfl (h4 t0 t1 t2 t3)
        · simp only [List.length_cons] at hle
          omega
      subst hempty
      exact List.perm_nil.mp (o.perm 0)
    · exact hrange
  rw [makeTuple_eq hrange, Option.map_map]
  rfl

end Femtolog
