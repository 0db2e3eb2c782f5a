import Mathlib.Data.List.Infix

/-!
# Foundations/FileTree — directories and files, and walking through them

A `FileTree` tells what is at each location: a directory, a file, or nothing; what is at a location
lies in a directory.  A location is the list of names that lead to it, innermost first.  A walk
takes one `PathStep` after the other, each from a directory; `mkdir` makes one where a walk leads to
nothing, and leaves everything else as it is (`node_of_mkdir`).

Going along a path directory by directory, making each that is missing, one is at a directory, at a
file, or beyond one (`Reached`, `AtFile`, `Blocked`): `mkdir` keeps it so from step to step.
-/

namespace Femtolog

/-- What can be at a location. -/
inductive Node
  | directory
  | file
  deriving DecidableEq

/-- **A tree of directories and files**: what is at each location. -/
structure FileTree (ν : Type*) where
  node : List ν → Option Node
  root : node [] = some .directory
  parent : ∀ {loc : List ν}, node loc ≠ none → node loc.tail = some .directory

/-- A component of a path: `.`, `..` or a name. -/
inductive PathStep (ν : Type*)
  | stay
  | up
  | down (name : ν)

variable {ν : Type*}

namespace PathStep

/-- Where a step leads. -/
def apply (step : PathStep ν) (loc : List ν) : List ν :=
  match step with
  | stay => loc
  | up => loc.tail
  | down name => name :: loc

/-- Where steps lead, one after the other. -/
def applyAll (steps : List (PathStep ν)) (start : List ν) : List ν :=
  steps.foldl (fun loc step => step.apply loc) start

theorem applyAll_concat (steps : List (PathStep ν)) (step : PathStep ν) (start : List ν) :
    applyAll (steps ++ [step]) start = step.apply (applyAll steps start) := List.foldl_concat ..

end PathStep

/-- Why a directory is not made. -/
inductive MkdirError
  | exists
  | noParent
  deriving DecidableEq

namespace FileTree

/-! ## Walking -/

/-- A walk from a location: each step is taken from a directory. -/
def walk (t : FileTree ν) (steps : List (PathStep ν)) (start : List ν) : Option (List ν) :=
  steps.foldlM (fun loc step =>
    if t.node loc = some .directory then some (step.apply loc) else none) start

variable {t t' : FileTree ν} {start : List ν} {steps : List (PathStep ν)} {step : PathStep ν}

/-- **Every step is taken from a directory.** -/
def Open (t : FileTree ν) (start : List ν) (steps : List (PathStep ν)) : Prop :=
  ∀ init, init <+: steps → init ≠ steps → t.node (PathStep.applyAll init start) = some .directory

/-- **All the way is directories.** -/
def Reached (t : FileTree ν) (start : List ν) (steps : List (PathStep ν)) : Prop :=
  Open t start steps ∧ t.node (PathStep.applyAll steps start) = some .directory

/-- The way ends at a file. -/
def AtFile (t : FileTree ν) (start : List ν) (steps : List (PathStep ν)) : Prop :=
  Open t start steps ∧ t.node (PathStep.applyAll steps start) = some .file

/-- There is a file on the way. -/
def Blocked (t : FileTree ν) (start : List ν) (steps : List (PathStep ν)) : Prop :=
  ∃ init, init <+: steps ∧ init ≠ steps ∧ t.node (PathStep.applyAll init start) = some .file

theorem open_concat_iff : Open t start (steps ++ [step]) ↔ Reached t start steps := by
  constructor
  · intro h
    refine ⟨fun init hinit _ => ?_, h steps (List.prefix_append _ _) (by simp)⟩
    refine h init (hinit.trans (List.prefix_append _ _)) fun heq => ?_
    have hlen := hinit.length_le
    rw [heq, List.length_append] at hlen
    exact absurd hlen (by simp)
  · rintro ⟨hopen, hnode⟩ init hinit hne
    rcases List.prefix_concat_iff.mp hinit with rfl | hinit
    · exact absurd rfl hne
    · rcases eq_or_ne init steps with rfl | hne
      · exact hnode
      · exact hopen init hinit hne

theorem blocked_concat_iff : Blocked t start (steps ++ [step])
    ↔ Blocked t start steps ∨ t.node (PathStep.applyAll steps start) = some .file := by
  constructor
  · rintro ⟨init, hinit, hne, hfile⟩
    rcases List.prefix_concat_iff.mp hinit with rfl | hinit
    · exact absurd rfl hne
    · rcases eq_or_ne init steps with rfl | hne
      · exact .inr hfile
      · exact .inl ⟨init, hinit, hne, hfile⟩
  · rintro (⟨init, hinit, hne, hfile⟩ | hfile)
    · refine ⟨init, hinit.trans (List.prefix_append _ _), fun heq => ?_, hfile⟩
      have hlen := hinit.length_le
      rw [heq, List.length_append] at hlen
      exact absurd hlen (by simp)
    · exact ⟨steps, List.prefix_append _ _, by simp, hfile⟩

/-- All the way to an earlier place is directories too. -/
theorem Reached.of_append {init rest : List (PathStep ν)} (h : Reached t start (init ++ rest)) :
    Reached t start init := by
  have hnode : ∀ front, front <+: init → t.node (PathStep.applyAll front start)
      = some .directory := fun front hfront => by
    rcases eq_or_ne front (init ++ rest) with rfl | hne
    · exact h.2
    · exact h.1 front (hfront.trans (List.prefix_append _ _)) hne
  exact ⟨fun front hfront _ => hnode front hfront, hnode init (List.prefix_refl _)⟩

theorem walk_concat : t.walk (steps ++ [step]) start = (t.walk steps start).bind fun loc =>
    if t.node loc = some .directory then some (step.apply loc) else none := by
  rw [walk, List.foldlM_append]
  change (t.walk steps start).bind _ = _
  refine congrArg _ (funext fun loc => ?_)
  rw [List.foldlM_cons]
  split_ifs <;> rfl

/-- **A walk leads where its steps do**, if it is one. -/
theorem eq_of_walk {loc : List ν} (h : t.walk steps start = some loc) :
    loc = PathStep.applyAll steps start := by
  induction steps using List.reverseRecOn generalizing loc with
  | nil => exact (Option.some_inj.mp h).symm
  | append_singleton steps step ih =>
    rw [walk_concat] at h
    obtain ⟨loc', hloc', hstep⟩ := Option.bind_eq_some_iff.mp h
    split_ifs at hstep
    rw [PathStep.applyAll_concat, ← ih hloc', Option.some_inj.mp hstep]

theorem walk_of_open (h : Open t start steps) :
    t.walk steps start = some (PathStep.applyAll steps start) := by
  induction steps using List.reverseRecOn with
  | nil => rfl
  | append_singleton steps step ih =>
    obtain ⟨hopen, hnode⟩ := open_concat_iff.mp h
    rw [walk_concat, ih hopen, Option.bind_some, if_pos hnode, PathStep.applyAll_concat]

theorem walk_of_blocked (h : Blocked t start steps) : t.walk steps start = none := by
  induction steps using List.reverseRecOn with
  | nil =>
    obtain ⟨init, hinit, hne, -⟩ := h
    exact absurd (List.prefix_nil.mp hinit) hne
  | append_singleton steps step ih =>
    rw [walk_concat]
    rcases blocked_concat_iff.mp h with hblocked | hfile
    · rw [ih hblocked, Option.bind_none]
    · refine Option.bind_eq_none_iff.mpr fun loc hloc => if_neg ?_
      rw [eq_of_walk hloc, hfile]
      decide

/-! ## Making directories -/

variable [DecidableEq ν]

/-- A new directory in a directory. -/
def insert (t : FileTree ν) (loc : List ν) (hparent : t.node loc.tail = some .directory) :
    FileTree ν where
  node l := if l = loc then some .directory else t.node l
  root := by
    split_ifs
    · rfl
    · exact t.root
  parent {l} h := by
    split_ifs with htail
    · rfl
    · split_ifs at h with hl
      · rwa [hl]
      · exact t.parent h

/-- **`mkdir`** makes a directory where its parent is one and nothing exists. -/
def mkdir (t : FileTree ν) (steps : List (PathStep ν)) (start : List ν) :
    Except MkdirError (FileTree ν) :=
  match t.walk steps start with
  | none => .error .noParent
  | some loc =>
    if t.node loc ≠ none then .error .exists
    else if hparent : t.node loc.tail = some .directory then .ok (t.insert loc hparent)
    else .error .noParent

/-- **What a new directory changes**: its own location, which was empty. -/
theorem node_of_mkdir (h : t.mkdir steps start = .ok t') :
    t.node (PathStep.applyAll steps start) = none ∧ ∀ loc, t'.node loc
      = if loc = PathStep.applyAll steps start then some .directory else t.node loc := by
  rw [mkdir] at h
  split at h
  case h_1 => cases h
  case h_2 loc hloc =>
    obtain rfl := eq_of_walk hloc
    split_ifs at h with hexists hparent
    refine ⟨not_not.mp hexists, fun loc => ?_⟩
    rw [← Except.ok.inj h]
    rfl

/-- What is somewhere stays there. -/
theorem node_mono_of_mkdir (h : t.mkdir steps start = .ok t') {loc : List ν} {node : Node}
    (hnode : t.node loc = some node) : t'.node loc = some node := by
  obtain ⟨hnew, hnode'⟩ := node_of_mkdir h
  rw [hnode', if_neg, hnode]
  rintro rfl
  rw [hnew] at hnode
  cases hnode

omit [DecidableEq ν] in
/-- **A step from a directory leads to something, or to a name in it.** -/
theorem node_tail_of_reached (h : Reached t start steps)
    (hnew : t.node (PathStep.applyAll (steps ++ [step]) start) = none) :
    t.node (PathStep.applyAll (steps ++ [step]) start).tail = some .directory := by
  rw [PathStep.applyAll_concat] at hnew ⊢
  cases step with
  | stay => exact absurd (h.2.symm.trans hnew) (Option.some_ne_none _)
  | up =>
    have hup := t.parent (h.2.symm ▸ Option.some_ne_none _)
    exact absurd (hup.symm.trans hnew) (Option.some_ne_none _)
  | down name => exact h.2

/-- `mkdir` fails where something exists. -/
theorem mkdir_of_exists (h : Open t start steps)
    (hexists : t.node (PathStep.applyAll steps start) ≠ none) :
    t.mkdir steps start = .error .exists := by
  rw [mkdir, walk_of_open h]
  exact if_pos hexists

/-- … and behind a file. -/
theorem mkdir_of_blocked (h : Blocked t start steps) : t.mkdir steps start = .error .noParent := by
  rw [mkdir, walk_of_blocked h]

/-- **`mkdir` makes what is missing in a directory.** -/
theorem exists_mkdir_of_reached (h : Reached t start steps)
    (hnew : t.node (PathStep.applyAll (steps ++ [step]) start) = none) :
    ∃ t', t.mkdir (steps ++ [step]) start = .ok t' ∧ Reached t' start (steps ++ [step]) := by
  obtain ⟨t', ht'⟩ : ∃ t', t.mkdir (steps ++ [step]) start = .ok t' := by
    rw [mkdir, walk_of_open (open_concat_iff.mpr h)]
    dsimp only
    rw [if_neg (not_not.mpr hnew), dif_pos (node_tail_of_reached h hnew)]
    exact ⟨_, rfl⟩
  refine ⟨t', ht', fun init hinit hne => ?_, ?_⟩
  · exact node_mono_of_mkdir ht' (open_concat_iff.mpr h init hinit hne)
  · rw [(node_of_mkdir ht').2, if_pos rfl]

/-- **`mkdir` makes no file and takes none away.** -/
theorem node_eq_file_iff_of_mkdir (h : t.mkdir steps start = .ok t') (loc : List ν) :
    t'.node loc = some .file ↔ t.node loc = some .file := by
  obtain ⟨hnew, hnode⟩ := node_of_mkdir h
  rw [hnode]
  split_ifs with hloc
  · rw [hloc, hnew]
    decide
  · rfl

end FileTree

end Femtolog
