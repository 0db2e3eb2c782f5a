import Mathlib.Logic.Function.Basic
import Femtolog.Foundations.Budget
import Femtolog.Foundations.Text
import Femtolog.Queue.Basic

/-!
# Logging/StringRegistry — strings under their ids

A `StringRegistry` maps ids to strings.  `register_string` keeps a view of a string that lies
elsewhere; `register_string_arena` copies the string behind those it has copied before, unless it is
the one its id has already.  No copy is ever given up, so views stay as they are, and nothing but a
debug check asks whether there is room: the registry is a map of ids to strings exactly as long as
the strings copied have room in the arena together (`keepsStrings_iff`).
-/

namespace Femtolog

/-- `StringId`. -/
abbrev StringId := BitVec 16

/-- `kInitialArenaSize`. -/
def kInitialArenaSize : ℕ := 1024 * 1024

/-- A `std::string_view` of the registry: of a string that lies elsewhere, or of `len` bytes of the
arena from `offset` on. -/
inductive RegistryView
  | elsewhere (text : List Byte)
  | arena (offset len : ℕ)

/-- `StringRegistry`. -/
structure StringRegistry where
  table : StringId → RegistryView
  arenaBuffer : CharArray kInitialArenaSize
  arenaSize : ℕ

namespace StringRegistry

/-- The constructor. -/
def new : StringRegistry where
  table := fun _ => .elsewhere []
  arenaBuffer := .zero kInitialArenaSize
  arenaSize := 0

/-- The bytes a view shows, undefined outside the arena. -/
def bytes (s : StringRegistry) : RegistryView → Option (List Byte)
  | .elsewhere text => some text
  | .arena offset len => window s.arenaBuffer.cells offset len

/-- `set`. -/
def set (s : StringRegistry) (id : StringId) (view : RegistryView) : StringRegistry :=
  { s with table := Function.update s.table id view }

/-- `register_string`. -/
def registerString (s : StringRegistry) (id : StringId) (view : List Byte) : StringRegistry :=
  s.set id (.elsewhere view)

/-- `register_string_arena` in a release, where the debug checks are nothing.  Undefined where the
copy leaves the arena. -/
def registerStringArena (s : StringRegistry) (id : StringId) (view : List Byte) :
    Option StringRegistry := do
  let previous ← s.bytes (s.table id)
  if previous ≠ [] ∧ previous = view then return s
  else
    let dest := s.arenaSize
    let len := view.length
    let arenaBuffer ← s.arenaBuffer.write dest view
    let stored := RegistryView.arena dest len
    return set { s with arenaBuffer, arenaSize := s.arenaSize + len } id stored

/-- `get_string`. -/
def getString (s : StringRegistry) (id : StringId) : RegistryView := s.table id

end StringRegistry

/-! ## Registrations -/

/-- A call of `register_string` or `register_string_arena`. -/
inductive Registration
  | string (id : StringId) (view : List Byte)
  | arena (id : StringId) (view : List Byte)

namespace Registration

/-- The id a string is registered for. -/
def id : Registration → StringId
  | string id _ | arena id _ => id

/-- The string that is registered. -/
def view : Registration → List Byte
  | string _ view | arena _ view => view

/-- What a registration does to a map of ids to strings. -/
def apply (strings : StringId → List Byte) (call : Registration) : StringId → List Byte :=
  Function.update strings call.id call.view

/-- How many bytes a registration needs in the arena: none for a string its id has already. -/
def need (strings : StringId → List Byte) : Registration → ℕ
  | string _ _ => 0
  | arena id view => if strings id = view then 0 else view.length

section Need

variable {strings : StringId → List Byte} {id : StringId} {view : List Byte}

theorem apply_of_eq (h : strings id = view) : (arena id view).apply strings = strings := by
  subst h
  exact Function.update_eq_self id strings

theorem need_of_eq (h : strings id = view) : (arena id view).need strings = 0 := if_pos h

/-- A string that is copied needs its length. -/
theorem need_eq (hnew : ¬(strings id ≠ [] ∧ strings id = view)) :
    (arena id view).need strings = view.length := by
  rw [need]
  split_ifs with heq
  · have hempty : strings id = [] := not_not.mp fun hne => hnew ⟨hne, heq⟩
    rw [← heq, hempty, List.length_nil]
  · rfl

end Need

end Registration

/-- **The bytes that calls need in the arena**: those of each view that is not what was registered
last for its id. -/
def arenaNeed (calls : List Registration) : ℕ :=
  totalCost Registration.apply Registration.need (fun _ => []) calls

namespace StringRegistry

/-- One call. -/
def register (s : StringRegistry) : Registration → Option StringRegistry
  | .string id view => some (s.registerString id view)
  | .arena id view => s.registerStringArena id view

/-- One call after the other. -/
def registerAll (s : StringRegistry) (calls : List Registration) : Option StringRegistry :=
  calls.foldlM register s

/-- **The registry keeps its strings** in all states that the calls lead through. -/
structure KeepsStrings (calls : List Registration) : Prop where
  /-- Every copy stays inside the arena. -/
  inside : ∃ s, new.registerAll calls = some s
  /-- What is read under an id is what was registered last for it. -/
  latest : ∀ {before after call s}, before ++ call :: after <+: calls →
    new.registerAll (before ++ call :: after) = some s → call.id ∉ after.map Registration.id →
      s.bytes (s.getString call.id) = some call.view
  /-- Later calls leave the bytes of a view that was read earlier, and for other ids also what is
  read under an id. -/
  stable : ∀ {before after s s'}, before ++ after <+: calls →
    new.registerAll before = some s → s.registerAll after = some s' → ∀ id, ∃ text,
      s.bytes (s.getString id) = some text ∧ s'.bytes (s.getString id) = some text
        ∧ (id ∉ after.map Registration.id → s'.bytes (s'.getString id) = some text)

/-! ## The arena -/

/-- `register_string_arena`, by the string that the id has. -/
theorem registerStringArena_eq {s : StringRegistry} {id : StringId} {previous : List Byte}
    (h : s.bytes (s.getString id) = some previous) (view : List Byte) :
    s.registerStringArena id view
      = if previous ≠ [] ∧ previous = view then some s
        else (s.arenaBuffer.write s.arenaSize view).map fun arenaBuffer =>
          set { s with arenaBuffer, arenaSize := s.arenaSize + view.length } id
            (.arena s.arenaSize view.length) := by
  rw [getString] at h
  rw [registerStringArena, h, Option.bind_eq_bind, Option.bind_some]
  split_ifs
  · rfl
  · exact Option.map_eq_bind.symm

/-- What has been copied to the arena. -/
def filled (s : StringRegistry) : List Byte := s.arenaBuffer.cells.take s.arenaSize

/-- **The registry stores a map**, with `used` bytes of the arena filled: each view shows its
string, of bytes that are filled. -/
structure Stores (s : StringRegistry) (strings : StringId → List Byte) (used : ℕ) : Prop where
  arenaSize_eq : s.arenaSize = used
  le : used ≤ kInitialArenaSize
  shows : ∀ id, s.table id = .elsewhere (strings id)
    ∨ ∃ offset len, s.table id = .arena offset len
      ∧ window s.filled offset len = some (strings id)

section Steps

variable {s s' : StringRegistry} {strings : StringId → List Byte} {used : ℕ} {id : StringId}
  {view front : List Byte} {calls : List Registration}

/-- A view that shows its string goes on to, as long as what is filled stays. -/
theorem Stores.bytes_later (h : s.Stores strings used) (hfilled : s.filled <+: s'.filled)
    (id : StringId) : s'.bytes (s.getString id) = some (strings id) := by
  have hcells : s.filled <+: s'.arenaBuffer.cells := hfilled.trans (List.take_prefix _ _)
  rw [getString]
  obtain hview | ⟨offset, len, hview, hshown⟩ := h.shows id
  · rw [hview, bytes]
  · rw [hview, bytes]
    exact window_mono hcells hshown

theorem Stores.bytes_eq (h : s.Stores strings used) (id : StringId) :
    s.bytes (s.getString id) = some (strings id) := h.bytes_later (List.prefix_refl _) id

theorem Stores.length_filled (h : s.Stores strings used) : s.filled.length = used := by
  rw [filled, List.length_take, s.arenaBuffer.length_cells, h.arenaSize_eq,
    Nat.min_eq_left h.le]

/-- A view of another string, of bytes that are filled. -/
theorem Stores.set (h : s.Stores strings used) {view : RegistryView} {text : List Byte}
    {s' : StringRegistry} {used' : ℕ} (harena : s'.arenaSize = used')
    (hle : used' ≤ kInitialArenaSize) (hfilled : s.filled <+: s'.filled)
    (htable : s'.table = Function.update s.table id view)
    (hview : view = .elsewhere text
      ∨ ∃ offset len, view = .arena offset len ∧ window s'.filled offset len = some text) :
    s'.Stores (Function.update strings id text) used' where
  arenaSize_eq := harena
  le := hle
  shows i := by
    rw [htable]
    rcases eq_or_ne i id with rfl | hne
    · rw [Function.update_self, Function.update_self]
      exact hview
    · rw [Function.update_of_ne hne, Function.update_of_ne hne]
      refine (h.shows i).imp_right ?_
      rintro ⟨offset, len, hview, hshown⟩
      exact ⟨offset, len, hview, window_mono hfilled hshown⟩

/-- A copy is filled in behind what has been. -/
theorem Stores.exists_write (h : s.Stores strings used)
    (hroom : used + view.length ≤ kInitialArenaSize) :
    ∃ arenaBuffer, s.arenaBuffer.write s.arenaSize view = some arenaBuffer
      ∧ arenaBuffer.cells.take (s.arenaSize + view.length) = s.filled ++ view := by
  have hlen : s.filled.length = s.arenaSize := h.length_filled.trans h.arenaSize_eq.symm
  have hcells : s.arenaBuffer.cells = s.filled ++ s.arenaBuffer.cells.drop s.arenaSize :=
    (List.take_append_drop _ _).symm
  obtain ⟨arenaBuffer, hwrite, hcells'⟩ :=
    @CharArray.exists_write _ _ _ _ view hcells (by rwa [h.length_filled])
  rw [hlen] at hwrite
  refine ⟨arenaBuffer, hwrite, ?_⟩
  rw [hcells', ← hlen, ← List.length_append, List.take_left]

/-- **A string that has room is copied** behind those copied before. -/
theorem Stores.exists_copy (h : s.Stores strings used)
    (hnew : ¬(strings id ≠ [] ∧ strings id = view))
    (hroom : used + view.length ≤ kInitialArenaSize) :
    ∃ s', s.registerStringArena id view = some s'
      ∧ s'.Stores (Function.update strings id view) (used + view.length)
      ∧ s.filled <+: s'.filled := by
  obtain ⟨arenaBuffer, hwrite, hcells⟩ := h.exists_write hroom
  let s' : StringRegistry := StringRegistry.set
    { s with arenaBuffer, arenaSize := s.arenaSize + view.length } id
    (.arena s.arenaSize view.length)
  have hfilled : s'.filled = s.filled ++ view := hcells
  have hkept : s.filled <+: s'.filled := hfilled ▸ List.prefix_append _ _
  have hshown : window s'.filled s.arenaSize view.length = some view := by
    have hwindow := @window_eq _ s.filled view [] s.arenaSize _
      (h.arenaSize_eq.trans h.length_filled.symm) rfl
    rwa [List.append_nil, ← hfilled] at hwindow
  refine ⟨s', ?_, ?_, hkept⟩
  · rw [registerStringArena_eq (h.bytes_eq id), if_neg hnew, hwrite]
    rfl
  · exact h.set (congrArg (· + view.length) h.arenaSize_eq) hroom hkept rfl
      (.inr ⟨_, _, rfl, hshown⟩)

/-- **A registration in the arena** goes through if there is room for what it needs. -/
theorem Stores.exists_registerStringArena (h : s.Stores strings used)
    (hroom : used + (Registration.arena id view).need strings ≤ kInitialArenaSize) :
    ∃ s', s.registerStringArena id view = some s'
      ∧ s'.Stores ((Registration.arena id view).apply strings)
        (used + (Registration.arena id view).need strings)
      ∧ s.filled <+: s'.filled := by
  by_cases hsame : strings id ≠ [] ∧ strings id = view
  · rw [Registration.apply_of_eq hsame.2, Registration.need_of_eq hsame.2]
    refine ⟨s, ?_, h, List.prefix_refl _⟩
    rw [registerStringArena_eq (h.bytes_eq id), if_pos hsame]
  · rw [Registration.need_eq hsame] at hroom ⊢
    exact h.exists_copy hsame hroom

/-- Without room the copy leaves the arena. -/
theorem Stores.registerStringArena_eq_none (h : s.Stores strings used)
    (hover : kInitialArenaSize < used + (Registration.arena id view).need strings) :
    s.registerStringArena id view = none := by
  have hle := h.le
  have hnew : ¬(strings id ≠ [] ∧ strings id = view) := fun hsame => by
    rw [Registration.need_of_eq hsame.2] at hover
    omega
  rw [Registration.need_eq hnew, ← h.arenaSize_eq] at hover
  have hwrite : s.arenaBuffer.write s.arenaSize view = none := dif_neg (Nat.not_le.mpr hover)
  rw [registerStringArena_eq (h.bytes_eq id), if_neg hnew, hwrite, Option.map_none]

/-- **One call after the other**, the registry follows the map within the arena, and leaves what
has been filled in `front`. -/
theorem follows (front : List Byte) : Follows register Registration.apply Registration.need
    kInitialArenaSize fun s strings used => s.Stores strings used ∧ front <+: s.filled where
  le h := h.1.le
  exists_step {s strings used} call h hroom := by
    obtain ⟨hstores, hfront⟩ := h
    cases call with
    | string id view =>
      exact ⟨_, rfl,
        hstores.set hstores.arenaSize_eq hstores.le (List.prefix_refl _) rfl (.inl rfl), hfront⟩
    | arena id view =>
      obtain ⟨s', hcall, hstores', hfilled⟩ := hstores.exists_registerStringArena hroom
      exact ⟨s', hcall, hstores', hfront.trans hfilled⟩
  step_eq_none {s strings used call} h hover := by
    cases call with
    | string id view => exact absurd hover (Nat.not_lt.mpr h.1.le)
    | arena id view => exact h.1.registerStringArena_eq_none hover

/-! ## Runs -/

theorem stores_new : new.Stores (fun _ => []) 0 where
  arenaSize_eq := rfl
  le := Nat.zero_le _
  shows _ := .inl rfl

/-- **Calls are carried out** if and only if what they copy has room in the arena. -/
theorem isSome_registerAll_iff (calls : List Registration) :
    (new.registerAll calls).isSome ↔ arenaNeed calls ≤ kInitialArenaSize := by
  rw [registerAll, (follows []).isSome_iff ⟨stores_new, List.nil_prefix⟩, Nat.zero_add, arenaNeed]

/-- **Calls that are carried out** leave the map that they describe, and what has been filled. -/
theorem Stores.registerAll (h : s.Stores strings used) (hrun : s.registerAll calls = some s') :
    (∃ used', s'.Stores (calls.foldl Registration.apply strings) used')
      ∧ s.filled <+: s'.filled := by
  obtain ⟨hstores, hfilled⟩ := (follows s.filled).of_run ⟨h, List.prefix_refl _⟩ hrun
  exact ⟨⟨_, hstores⟩, hfilled⟩

/-- Calls for other ids leave the string of an id. -/
theorem foldl_apply_of_notMem (h : id ∉ calls.map Registration.id)
    (strings : StringId → List Byte) : calls.foldl Registration.apply strings id = strings id := by
  induction calls generalizing strings with
  | nil => rfl
  | cons call calls ih =>
    rw [List.map_cons, List.mem_cons, not_or] at h
    rw [List.foldl_cons, ih h.2, Registration.apply, Function.update_of_ne h.1]

/-- After its last call an id has the string of that call. -/
theorem bytes_of_last {before after : List Registration} {call : Registration}
    (hrun : new.registerAll (before ++ call :: after) = some s)
    (h : call.id ∉ after.map Registration.id) :
    s.bytes (s.getString call.id) = some call.view := by
  obtain ⟨⟨used, hstores⟩, -⟩ := stores_new.registerAll hrun
  rw [hstores.bytes_eq, List.foldl_append, List.foldl_cons, foldl_apply_of_notMem h,
    Registration.apply, Function.update_self]

/-- A view that has been read goes on to show its string, and other ids than those of the later
calls go on to have theirs. -/
theorem bytes_of_later {before after : List Registration}
    (hbefore : new.registerAll before = some s) (hafter : s.registerAll after = some s')
    (id : StringId) : ∃ text, s.bytes (s.getString id) = some text
      ∧ s'.bytes (s.getString id) = some text
      ∧ (id ∉ after.map Registration.id → s'.bytes (s'.getString id) = some text) := by
  obtain ⟨⟨used, hstores⟩, -⟩ := stores_new.registerAll hbefore
  obtain ⟨⟨used', hstores'⟩, hfilled⟩ := hstores.registerAll hafter
  refine ⟨_, hstores.bytes_eq id, hstores.bytes_later hfilled id, fun h => ?_⟩
  rw [hstores'.bytes_eq, foldl_apply_of_notMem h]

/-- **The registry keeps its strings** if and only if what is copied has room in the arena. -/
theorem keepsStrings_iff (calls : List Registration) :
    KeepsStrings calls ↔ arenaNeed calls ≤ kInitialArenaSize := by
  rw [← isSome_registerAll_iff, Option.isSome_iff_exists]
  constructor
  · exact KeepsStrings.inside
  · intro hinside
    exact ⟨hinside, fun _ => bytes_of_last, fun _ => bytes_of_later⟩

/-- One string of a byte more than the arena has is copied past its end. -/
theorem not_keepsStrings_oversize :
    ¬KeepsStrings [.arena 0#16 (List.replicate (kInitialArenaSize + 1) 0x78)] := by
  intro h
  have hneed := (isSome_registerAll_iff _).mp (Option.isSome_iff_exists.mpr h.inside)
  rw [arenaNeed, totalCost, totalCost, Registration.need, if_neg (by simp),
    List.length_replicate] at hneed
  omega

end Steps

end StringRegistry

end Femtolog
