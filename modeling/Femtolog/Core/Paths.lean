import Femtolog.Foundations.Search
import Femtolog.Foundations.Text
import Femtolog.Queue.Basic

/-!
# Core/Paths — taking paths apart and joining them

`file_extension` and `file_name_without_extension` look for the last separator and the last dot of a
whole path, and split what follows the separator at the dot, if it is behind the first character
(`partsAgree`).

`parent_dir` and `base_name` split a path at its last separator, `join_path` puts parts together
with separators in between.  `join_path` skips a part that is empty, and the parent of a file in the
root directory is: joined with the file's name it gives a path relative to wherever the process
runs.  Every other path comes back, and a name joined with its parent stays in its directory
(`joinsBack_iff`).
-/

namespace Femtolog

/-- `FEMTOLOG_DIR_SEPARATOR`. -/
def kDirSeparator : Byte := 0x2F

/-! ## Splitting -/

/-- `parent_dir`. -/
def parentDir (path : List Byte) : List Byte :=
  match lastOccurrence kDirSeparator path with
  | none => []
  | some pos => path.take pos

/-- `base_name`. -/
def baseName (path : List Byte) : List Byte :=
  match lastOccurrence kDirSeparator path with
  | none => []
  | some pos => path.drop (pos + 1)

/-- `file_extension`. -/
def fileExtension (path : List Byte) : List Byte :=
  match lastOccurrence kDirSeparator path, lastOccurrence 0x2E path with
  | _, none => []
  | none, some lastDot => if lastDot = 0 then [] else path.drop (lastDot + 1)
  | some lastSlash, some lastDot =>
    if lastDot < lastSlash then []
    else if lastDot = 0 ∨ lastDot = lastSlash + 1 then []
    else path.drop (lastDot + 1)

/-- `file_name_without_extension`. -/
def fileNameWithoutExtension (path : List Byte) : List Byte :=
  match lastOccurrence kDirSeparator path, lastOccurrence 0x2E path with
  | none, none => path
  | some lastSlash, none => path.drop (lastSlash + 1)
  | none, some lastDot => if lastDot = 0 then path else path.take lastDot
  | some lastSlash, some lastDot =>
    let filenamePart := path.drop (lastSlash + 1)
    if lastDot < lastSlash ∨ lastDot = 0 ∨ lastDot = lastSlash + 1 then filenamePart
    else filenamePart.take (lastDot - (lastSlash + 1))

/-- `filename_part` of `file_name_without_extension`: what follows the last separator. -/
def filenamePart (path : List Byte) : List Byte :=
  match lastOccurrence kDirSeparator path with
  | none => path
  | some lastSlash => path.drop (lastSlash + 1)

/-- What stands in front of a name in its path: nothing, or all up to the last separator. -/
def directory (path : List Byte) : List Byte :=
  match lastOccurrence kDirSeparator path with
  | none => []
  | some pos => path.take (pos + 1)

/-! ## Joining -/

/-- `sanitize_component`. -/
def sanitizeComponent (part : CString) (isFirst : Bool) : List Byte :=
  let result := part.text
  let result := if ¬isFirst ∧ result.head? = some kDirSeparator then result.tail else result
  if result.getLast? = some kDirSeparator then result.dropLast else result

/-- The lambda of `join_path` on one part, with `joined` and `is_first`. -/
def joinPart (s : List Byte × Bool) (part : List Byte) : List Byte × Bool :=
  let sanitized := sanitizeComponent (.ofText part) s.2
  if sanitized = [] then s
  else (s.1 ++ (if s.2 then [] else [kDirSeparator]) ++ sanitized, false)

/-- `join_path`. -/
def joinPath (parts : List (List Byte)) : List Byte := (parts.foldl joinPart ([], true)).1

/-! ## The parts of a path -/

section Parts

variable (path : List Byte)

theorem directory_append_filenamePart : directory path ++ filenamePart path = path := by
  rw [directory, filenamePart]
  cases lastOccurrence kDirSeparator path with
  | none => rfl
  | some lastSlash => exact List.take_append_drop _ _

/-- What follows the last separator of a path has none. -/
theorem separator_notMem_filenamePart : kDirSeparator ∉ filenamePart path := by
  rw [filenamePart]
  cases hslash : lastOccurrence kDirSeparator path with
  | none => exact lastOccurrence_eq_none_iff.mp hslash
  | some lastSlash =>
    obtain ⟨before, rest, rfl, rfl, hrest⟩ := exists_split_of_lastOccurrence hslash
    dsimp only
    rwa [← List.drop_drop, List.drop_left]

theorem filenamePart_subset : filenamePart path ⊆ path := by
  conv_rhs => rw [← directory_append_filenamePart path]
  exact List.subset_append_right _ _

theorem length_directory_le : (directory path).length ≤ (parentDir path).length + 1 := by
  rw [directory, parentDir]
  cases lastOccurrence kDirSeparator path with
  | none => exact Nat.zero_le _
  | some lastSlash =>
    dsimp only
    rw [List.length_take, List.length_take]
    omega

/-- **A name without its extension, and the extension**: the whole name and nothing, or what is on
either side of a dot that is not in front. -/
inductive SplitsName : List Byte → List Byte → List Byte → Prop
  | whole (name : List Byte) : SplitsName name name []
  | atDot {stem ext : List Byte} (hstem : stem ≠ []) (hext : 0x2E ∉ ext) :
    SplitsName (stem ++ 0x2E :: ext) stem ext

namespace SplitsName

variable {name stem ext : List Byte}

theorem whole_or_atDot (h : SplitsName name stem ext) :
    (stem = name ∧ ext = []) ∨ (name = stem ++ 0x2E :: ext ∧ 0x2E ∉ ext) := by
  cases h with
  | whole => exact .inl ⟨rfl, rfl⟩
  | atDot _ hext => exact .inr ⟨rfl, hext⟩

theorem stem_subset (h : SplitsName name stem ext) : stem ⊆ name := by
  cases h with
  | whole => exact List.Subset.refl _
  | atDot => exact List.subset_append_left _ _

theorem ext_subset (h : SplitsName name stem ext) : ext ⊆ name := by
  cases h with
  | whole => exact List.nil_subset _
  | atDot => exact List.Subset.trans (List.subset_cons_self _ _) (List.subset_append_right _ _)

theorem length_le (h : SplitsName name stem ext) :
    name.length ≤ stem.length + 1 + ext.length := by
  cases h with
  | whole => exact Nat.le_add_right _ _
  | atDot =>
    rw [List.length_append, List.length_cons]
    omega

end SplitsName

/-- A name that starts in front of the last dot of the path is split there. -/
theorem splitsName_drop {path : List Byte} {start lastDot : ℕ}
    (hdot : lastOccurrence 0x2E path = some lastDot) (hstart : start < lastDot) :
    SplitsName (path.drop start) ((path.drop start).take (lastDot - start))
      (path.drop (lastDot + 1)) := by
  obtain ⟨before, ext, rfl, rfl, hext⟩ := exists_split_of_lastOccurrence hdot
  have hlen : (before.drop start).length = before.length - start := List.length_drop
  have hne : before.drop start ≠ [] := by
    rw [← List.length_pos_iff]
    omega
  rw [List.drop_append_of_le_length hstart.le, List.take_left' hlen, ← List.drop_drop,
    List.drop_left]
  exact .atDot hne hext

/-- **Both functions split a name at the same dot**, or not at all. -/
theorem splitsName : SplitsName (filenamePart path) (fileNameWithoutExtension path)
    (fileExtension path) := by
  rw [filenamePart, fileNameWithoutExtension, fileExtension]
  cases hslash : lastOccurrence kDirSeparator path with
  | none =>
    cases hdot : lastOccurrence 0x2E path with
    | none => exact .whole path
    | some lastDot =>
      dsimp only
      split_ifs with hfront
      · exact .whole path
      · exact splitsName_drop hdot (Nat.pos_of_ne_zero hfront)
  | some lastSlash =>
    cases hdot : lastOccurrence 0x2E path with
    | none => exact .whole _
    | some lastDot =>
      have hne : lastDot ≠ lastSlash := by
        rintro rfl
        have hletter := getElem?_of_lastOccurrence hslash
        rw [getElem?_of_lastOccurrence hdot] at hletter
        exact absurd hletter (by decide)
      dsimp only
      by_cases hdir : lastDot < lastSlash
      · rw [if_pos hdir, if_pos (.inl hdir)]
        exact .whole _
      · by_cases hfront : lastDot = 0 ∨ lastDot = lastSlash + 1
        · rw [if_neg hdir, if_pos hfront, if_pos (.inr hfront)]
          exact .whole _
        · rw [if_neg hdir, if_neg hfront, if_neg (not_or.mpr ⟨hdir, hfront⟩)]
          exact splitsName_drop hdot (by omega)

theorem fileNameWithoutExtension_subset : fileNameWithoutExtension path ⊆ path :=
  List.Subset.trans (splitsName path).stem_subset (filenamePart_subset path)

theorem fileExtension_subset : fileExtension path ⊆ path :=
  List.Subset.trans (splitsName path).ext_subset (filenamePart_subset path)

theorem separator_notMem_fileNameWithoutExtension :
    kDirSeparator ∉ fileNameWithoutExtension path := fun h =>
  separator_notMem_filenamePart path ((splitsName path).stem_subset h)

theorem separator_notMem_fileExtension : kDirSeparator ∉ fileExtension path := fun h =>
  separator_notMem_filenamePart path ((splitsName path).ext_subset h)

/-- Nothing of a path but a separator and a dot is lost between its parts. -/
theorem length_le_parts : path.length ≤ (parentDir path).length + 1
    + ((fileNameWithoutExtension path).length + 1 + (fileExtension path).length) := by
  have hsum := congrArg List.length (directory_append_filenamePart path)
  rw [List.length_append] at hsum
  have hdirectory := length_directory_le path
  have hname := (splitsName path).length_le
  omega

/-! ## Where the extension starts -/

/-- **`file_extension` and `file_name_without_extension` agree** on where the extension starts:
they cut the path at the same dot, if at any, and only such a dot is missing between them. -/
structure PartsAgree (path : List Byte) : Prop where
  agree : (fileNameWithoutExtension path = filenamePart path ∧ fileExtension path = [])
    ∨ ∃ dot, path[dot]? = some 0x2E
      ∧ directory path ++ fileNameWithoutExtension path = path.take dot
      ∧ fileExtension path = path.drop (dot + 1)
  of_ne_nil : fileExtension path ≠ [] →
    filenamePart path = fileNameWithoutExtension path ++ ascii "." ++ fileExtension path
      ∧ 0x2E ∉ fileExtension path ∧ kDirSeparator ∉ fileExtension path
  of_nil : fileExtension path = [] → filenamePart path = fileNameWithoutExtension path
    ∨ filenamePart path = fileNameWithoutExtension path ++ ascii "."

/-- A dot of the name is one of the path. -/
theorem exists_dot {stem ext : List Byte} (h : filenamePart path = stem ++ 0x2E :: ext) :
    ∃ dot, path[dot]? = some 0x2E ∧ directory path ++ stem = path.take dot
      ∧ ext = path.drop (dot + 1) := by
  have hpath : (directory path ++ stem) ++ 0x2E :: ext = path := by
    rw [List.append_assoc, ← h, directory_append_filenamePart]
  generalize directory path ++ stem = front at hpath ⊢
  subst hpath
  refine ⟨front.length, ?_, List.take_left.symm, ?_⟩
  · rw [List.getElem?_append_right le_rfl, Nat.sub_self, List.getElem?_cons_zero]
  · rw [← List.drop_drop, List.drop_left]
    rfl

/-- **The two functions agree** on every path. -/
theorem partsAgree : PartsAgree path where
  agree := by
    obtain hwhole | ⟨hname, -⟩ := (splitsName path).whole_or_atDot
    · exact .inl hwhole
    · exact .inr (exists_dot path hname)
  of_ne_nil hne := by
    obtain ⟨-, hnil⟩ | ⟨hname, hext⟩ := (splitsName path).whole_or_atDot
    · exact absurd hnil hne
    · exact ⟨hname.trans (List.append_cons _ _ _), hext, separator_notMem_fileExtension path⟩
  of_nil hnil := by
    obtain ⟨hwhole, -⟩ | ⟨hname, -⟩ := (splitsName path).whole_or_atDot
    · exact .inl hwhole.symm
    · rw [hnil] at hname
      exact .inr hname

end Parts

/-! ## Names in a directory -/

/-- **The name of a file**: a text with neither separators nor zero bytes. -/
structure FileName where
  text : List Byte
  ne_nil : text ≠ []
  separator_notMem : kDirSeparator ∉ text
  nul_notMem : 0 ∉ text

/-- What `join_path` puts in front of a name. -/
def dirPrefix (parent : List Byte) : List Byte :=
  let sanitized := sanitizeComponent (.ofText parent) true
  if sanitized = [] then [] else sanitized ++ [kDirSeparator]

/-- A part that neither starts nor ends with a separator stays as it is. -/
theorem sanitizeComponent_eq {part : List Byte} (hnul : 0 ∉ part)
    (hhead : part.head? ≠ some kDirSeparator) (hlast : part.getLast? ≠ some kDirSeparator)
    (isFirst : Bool) : sanitizeComponent (.ofText part) isFirst = part := by
  rw [sanitizeComponent, CString.text_ofText hnul, if_neg (not_and_of_not_right _ hhead),
    if_neg hlast]

/-- The first part keeps a separator in front. -/
theorem sanitizeComponent_first (part : CString) : sanitizeComponent part true
    = if part.text.getLast? = some kDirSeparator then part.text.dropLast else part.text := by
  rw [sanitizeComponent, if_neg (not_and_of_not_left _ (not_not.mpr rfl))]

/-- At most the separator at its end is missing of a parent that is put in front. -/
theorem length_le_dirPrefix {parent : List Byte} (hnul : 0 ∉ parent) :
    parent.length ≤ (dirPrefix parent).length + 1 := by
  have hsanitized : parent.length ≤ (sanitizeComponent (.ofText parent) true).length + 1 := by
    rw [sanitizeComponent_first, CString.text_ofText hnul]
    split_ifs
    · rw [List.length_dropLast]
      omega
    · exact Nat.le_succ _
  rw [dirPrefix]
  split_ifs with hempty
  · rwa [hempty] at hsanitized
  · rw [List.length_append, List.length_singleton]
    omega

theorem nul_notMem_sanitizeComponent (part : CString) : 0 ∉ sanitizeComponent part true := by
  rw [sanitizeComponent_first]
  split_ifs
  · exact fun h => part.notMem (List.dropLast_subset _ h)
  · exact part.notMem

theorem nul_notMem_dirPrefix (parent : List Byte) : 0 ∉ dirPrefix parent := by
  have hsanitized := nul_notMem_sanitizeComponent (.ofText parent)
  rw [dirPrefix]
  split_ifs
  · exact List.not_mem_nil
  · rw [List.mem_append, not_or, List.mem_singleton]
    exact ⟨hsanitized, by decide⟩

/-- **A name is joined with its directory** by the same text in front, whatever the name. -/
theorem joinPath_pair (parent : List Byte) {name : List Byte} (hne : name ≠ []) (hnul : 0 ∉ name)
    (hhead : name.head? ≠ some kDirSeparator) (hlast : name.getLast? ≠ some kDirSeparator) :
    joinPath [parent, name] = dirPrefix parent ++ name := by
  have hname : ∀ s, joinPart s name
      = (s.1 ++ (if s.2 then [] else [kDirSeparator]) ++ name, false) := fun s => by
    rw [joinPart, sanitizeComponent_eq hnul hhead hlast, if_neg hne]
  have hparent : joinPart ([], true) parent = if sanitizeComponent (.ofText parent) true = []
      then ([], true) else (sanitizeComponent (.ofText parent) true, false) := rfl
  rw [joinPath, List.foldl_cons, List.foldl_cons, List.foldl_nil, hname, dirPrefix, hparent]
  by_cases hempty : sanitizeComponent (.ofText parent) true = []
  · rw [if_pos hempty, if_pos hempty]
    rfl
  · rw [if_neg hempty, if_neg hempty]
    rfl

namespace FileName

variable (name : FileName)

theorem head?_ne : name.text.head? ≠ some kDirSeparator := fun h =>
  name.separator_notMem (List.mem_of_head? h)

theorem getLast?_ne : name.text.getLast? ≠ some kDirSeparator := fun h =>
  name.separator_notMem (List.mem_of_getLast? h)

theorem joinPath_eq (parent : List Byte) :
    joinPath [parent, name.text] = dirPrefix parent ++ name.text :=
  joinPath_pair parent name.ne_nil name.nul_notMem name.head?_ne name.getLast?_ne

end FileName

/-! ## Splitting and joining -/

/-- **Splitting a path and joining it again** gives it back, a name joined with its parent is in its
directory, and absolute if it is. -/
structure JoinsBack (path : List Byte) : Prop where
  join_eq : joinPath [parentDir path, baseName path] = path
  directory_eq : ∀ name : FileName,
    directory (joinPath [parentDir path, name.text]) = directory path
  absolute : path.head? = some kDirSeparator → ∀ name : FileName,
    (joinPath [parentDir path, name.text]).head? = some kDirSeparator

section Split

variable {before rest : List Byte}

theorem parentDir_append (hrest : kDirSeparator ∉ rest) :
    parentDir (before ++ kDirSeparator :: rest) = before := by
  rw [parentDir, lastOccurrence_append hrest]
  exact List.take_left

theorem baseName_append (hrest : kDirSeparator ∉ rest) :
    baseName (before ++ kDirSeparator :: rest) = rest := by
  rw [baseName, lastOccurrence_append hrest]
  dsimp only
  rw [← List.drop_drop, List.drop_left]
  rfl

theorem directory_append (hrest : kDirSeparator ∉ rest) :
    directory (before ++ kDirSeparator :: rest) = before ++ [kDirSeparator] := by
  rw [directory, lastOccurrence_append hrest, List.append_cons]
  exact List.take_left' (by rw [List.length_append, List.length_singleton])

/-- A parent that ends in no separator is put in front as it is, an empty one not at all. -/
theorem dirPrefix_eq (hnul : 0 ∉ before) (hlast : before.getLast? ≠ some kDirSeparator) :
    dirPrefix before = if before = [] then [] else before ++ [kDirSeparator] := by
  have hsanitized : sanitizeComponent (.ofText before) true = before := by
    rw [sanitizeComponent_first, CString.text_ofText hnul, if_neg hlast]
  rw [dirPrefix, hsanitized]

/-- A name joined with a parent that is not empty comes behind it and a separator. -/
theorem joinPath_parent (hne : before ≠ []) (hnul : 0 ∉ before)
    (hlast : before.getLast? ≠ some kDirSeparator) (name : FileName) :
    joinPath [before, name.text] = before ++ kDirSeparator :: name.text := by
  rw [name.joinPath_eq, dirPrefix_eq hnul hlast, if_neg hne, ← List.append_cons]

/-- **A path comes back** if its parent is not empty. -/
theorem joinsBack_of_parent (hne : before ≠ []) (hnul : 0 ∉ before)
    (hlast : before.getLast? ≠ some kDirSeparator) (name : FileName) :
    JoinsBack (before ++ kDirSeparator :: name.text) := by
  have hparent := @parentDir_append before _ name.separator_notMem
  constructor
  · rw [hparent, baseName_append name.separator_notMem, joinPath_parent hne hnul hlast]
  · intro name'
    rw [hparent, joinPath_parent hne hnul hlast, directory_append name.separator_notMem,
      directory_append name'.separator_notMem]
  · intro habs name'
    rw [hparent, joinPath_parent hne hnul hlast, List.head?_append_of_ne_nil _ hne]
    rwa [List.head?_append_of_ne_nil _ hne] at habs

/-- A file of the root directory comes back without the separator. -/
theorem not_joinsBack_of_root (name : FileName) : ¬JoinsBack (kDirSeparator :: name.text) := by
  intro h
  have heq := h.join_eq
  rw [← List.nil_append (kDirSeparator :: name.text), parentDir_append name.separator_notMem,
    baseName_append name.separator_notMem, name.joinPath_eq] at heq
  exact absurd (congrArg List.length heq) (by simp [dirPrefix, sanitizeComponent, CString.ofText])

end Split

/-- **Which paths come back**: of those with a separator in them, none at the end and no two in a
row, all but the files of the root directory. -/
theorem joinsBack_iff (path : CString) (hmem : kDirSeparator ∈ path.text)
    (hlast : path.text.getLast? ≠ some kDirSeparator)
    (hrow : ¬[kDirSeparator, kDirSeparator] <:+: path.text) :
    JoinsBack path.text ↔ ¬∃ name, kDirSeparator ∉ name ∧ path.text = kDirSeparator :: name := by
  obtain ⟨text, hnul⟩ := path
  dsimp only at hmem hlast hrow ⊢
  obtain ⟨before, rest, rfl, hrest⟩ := exists_split_of_mem hmem
  have hne : rest ≠ [] := by
    rintro rfl
    exact hlast List.getLast?_concat
  obtain ⟨hbefore, hnulRest⟩ := not_or.mp fun h => hnul (List.mem_append.mpr h)
  let name : FileName := ⟨rest, hne, hrest, fun h => hnulRest (List.mem_cons_of_mem _ h)⟩
  rcases eq_or_ne before [] with rfl | hparent
  · exact iff_of_false (not_joinsBack_of_root name) (not_not.mpr ⟨rest, hrest, rfl⟩)
  · have hend : before.getLast? ≠ some kDirSeparator := by
      intro hend
      obtain ⟨init, rfl⟩ := List.getLast?_eq_some_iff.mp hend
      exact hrow ⟨init, rest, by simp⟩
    refine iff_of_true (joinsBack_of_parent hparent hbefore hend name) ?_
    rintro ⟨name', hsep, hsplit⟩
    obtain ⟨c, init, rfl⟩ := List.exists_cons_of_ne_nil hparent
    obtain ⟨-, rfl⟩ := List.cons_eq_cons.mp hsplit
    exact hsep (List.mem_append_right _ List.mem_cons_self)

/-- A log in the current directory's `logs`. -/
theorem joinsBack_relative : JoinsBack (ascii "logs/latest.log") :=
  (joinsBack_iff (.literal "logs/latest.log") (by decide) (by decide) (by decide)).mpr <| by
    rintro ⟨name, -, h⟩
    exact absurd (List.cons.inj h).1 (by decide)

/-- The archive of a log in the root directory goes to the current one. -/
theorem not_joinsBack_root : ¬JoinsBack (ascii "/latest.log") := fun h =>
  absurd h.join_eq (by decide)

end Femtolog
