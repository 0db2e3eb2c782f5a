import Femtolog.Core.Paths
import Femtolog.Core.Tokens
import Femtolog.Foundations.FileTree

/-!
# Core/Directories — making a directory with all above it

`create_directories` goes along a path and makes every directory that is not there.  It takes the
error `EEXIST` of `mkdir` for success, which it is where the directory has been made meanwhile, but
not where a file stands in its place: when that is at the end of the path, success is reported all
the same.  Nor is there a directory for the empty path, which is what the parent of a plain file
name is.  In all other cases success means that the directories are there
(`createDirectories_iff`).
-/

namespace Femtolog

/-! ## The file system -/

/-- The file system, and the working directory of the process. -/
structure FileSystem where
  tree : FileTree (List Byte)
  cwd : List (List Byte)
  cwd_directory : tree.node cwd = some .directory

/-- A component of a path. -/
def pathStep (name : List Byte) : PathStep (List Byte) :=
  if name = ascii "." then .stay else if name = ascii ".." then .up else .down name

/-- The components of a path; empty ones do not count. -/
def pathSteps (path : List Byte) : List (PathStep (List Byte)) :=
  ((path.splitOn kDirSeparator).filter (· ≠ [])).map pathStep

theorem pathSteps_append_separator (before rest : List Byte) :
    pathSteps (before ++ kDirSeparator :: rest) = pathSteps before ++ pathSteps rest := by
  rw [pathSteps, List.splitOn_append_cons_self, List.filter_append, List.map_append]
  rfl

@[simp] theorem pathSteps_nil : pathSteps [] = [] := by
  rw [pathSteps, List.splitOn_nil]
  rfl

/-- A text without separators is one component at most. -/
theorem pathSteps_of_notMem {token : List Byte} (h : kDirSeparator ∉ token) :
    pathSteps token = if token = [] then [] else [pathStep token] := by
  rw [pathSteps, List.splitOn_eq_singleton h, List.filter_singleton]
  split_ifs with hempty <;> simp [hempty]

namespace FileSystem

/-- Where a path starts. -/
def start (fs : FileSystem) (path : List Byte) : List (List Byte) :=
  if path.head? = some kDirSeparator then [] else fs.cwd

/-- `dir_exists`. -/
def dirExists (fs : FileSystem) (dirName : CString) : Bool :=
  dirName.text ≠ [] ∧ (fs.tree.walk (pathSteps dirName.text) (fs.start dirName.text)).bind
    fs.tree.node = some .directory

/-- `mkdir`. -/
def mkdir (fs : FileSystem) (path : CString) : Except MkdirError FileSystem :=
  if path.text = [] then .error .noParent
  else
    match h : fs.tree.mkdir (pathSteps path.text) (fs.start path.text) with
    | .error e => .error e
    | .ok tree => .ok ⟨tree, fs.cwd, FileTree.node_mono_of_mkdir h fs.cwd_directory⟩

end FileSystem

/-! ## The functions -/

/-- `create_directory`. -/
def createDirectory (fs : FileSystem) (path : CString) : FileSystem × ℤ :=
  match fs.mkdir path with
  | .ok fs' => (fs', 0)
  | .error .exists => (fs, 0)
  | .error .noParent => (fs, -1)

/-- What the loop of `create_directories` does with one `dir`. -/
def tryDirectory (s : FileSystem × ℕ) (dir : List Byte) : FileSystem × ℕ :=
  if dir ≠ [] ∧ ¬s.1.dirExists (.ofText dir) then
    let made := createDirectory s.1 (.ofText dir)
    if made.2 ≠ 0 then (made.1, s.2 + 1) else (made.1, s.2)
  else s

/-- The loop of `create_directories`, with what it has made and its `result`: a number, where the
`int` counts to `2 ^ 31 - 1`. -/
def createLoop (sanitizedPath : List Byte) (s : FileSystem × ℕ) (pos : ℕ) : FileSystem × ℕ :=
  if pos < sanitizedPath.length then
    match h : find sanitizedPath [kDirSeparator] pos with
    | some nextPos =>
      have := le_of_find h
      createLoop sanitizedPath (tryDirectory s (sanitizedPath.take nextPos)) (nextPos + 1)
    | none => createLoop sanitizedPath (tryDirectory s sanitizedPath) sanitizedPath.length
  else s
termination_by sanitizedPath.length - pos

/-- `create_directories`, with how many directories failed: the `int` it returns, while they are
fewer than `2 ^ 31`. -/
def createDirectories (fs : FileSystem) (path : CString) : FileSystem × ℕ :=
  createLoop (sanitizeComponent path true) (fs, 0) 0

/-! ## One directory -/

section Directory

open FileTree

variable {fs fs' : FileSystem} {s : FileSystem × ℕ} {path : CString} {dir : List Byte}
  {start : List (List Byte)} {steps : List (PathStep (List Byte))}

/-- A directory is there if the way to it is directories. -/
theorem dirExists_of_reached (hne : path.text ≠ [])
    (h : Reached fs.tree (fs.start path.text) (pathSteps path.text)) :
    fs.dirExists path = true := by
  rw [FileSystem.dirExists, decide_eq_true_eq, walk_of_open h.1]
  exact ⟨hne, h.2⟩

theorem dirExists_of_atFile (h : AtFile fs.tree (fs.start path.text) (pathSteps path.text)) :
    fs.dirExists path = false := by
  rw [FileSystem.dirExists, decide_eq_false_iff_not, walk_of_open h.1, Option.bind_some, h.2]
  exact fun h => absurd h.2 (by decide)

theorem dirExists_of_blocked (h : Blocked fs.tree (fs.start path.text) (pathSteps path.text)) :
    fs.dirExists path = false := by
  rw [FileSystem.dirExists, decide_eq_false_iff_not, walk_of_blocked h, Option.bind_none]
  exact fun h => absurd h.2 (by decide)

/-- What `create_directory` makes of the tree. -/
theorem createDirectory_of_ok (hne : path.text ≠ []) {tree : FileTree (List Byte)}
    (h : fs.tree.mkdir (pathSteps path.text) (fs.start path.text) = .ok tree) :
    createDirectory fs path = (⟨tree, fs.cwd, node_mono_of_mkdir h fs.cwd_directory⟩, 0) := by
  have hmkdir : fs.mkdir path = .ok ⟨tree, fs.cwd, node_mono_of_mkdir h fs.cwd_directory⟩ := by
    rw [FileSystem.mkdir, if_neg hne]
    split
    case h_1 e he => cases h.symm.trans he
    case h_2 tree' htree' =>
      obtain rfl := Except.ok.inj (h.symm.trans htree')
      rfl
  rw [createDirectory, hmkdir]

/-- … and of its errors. -/
theorem createDirectory_of_error (hne : path.text ≠ []) {e : MkdirError}
    (h : fs.tree.mkdir (pathSteps path.text) (fs.start path.text) = .error e) :
    createDirectory fs path = (fs, if e = .exists then 0 else -1) := by
  have hmkdir : fs.mkdir path = .error e := by
    rw [FileSystem.mkdir, if_neg hne]
    split
    case h_1 e' he' => rw [Except.error.inj (h.symm.trans he')]
    case h_2 tree htree => cases h.symm.trans htree
  rw [createDirectory, hmkdir]
  cases e <;> rfl

end Directory

/-! ## The loop -/

section Loop

open FileTree

variable {s s' : FileSystem × ℕ} {dir : List Byte} {start : List (List Byte)}
  {steps : List (PathStep (List Byte))} {sanitizedPath : List Byte} {pos : ℕ}

/-- **How the loop stands** when it has gone some steps: at a directory or at a file, without a
failure, or beyond a file, with one. -/
inductive Phase (s : FileSystem × ℕ) (start : List (List Byte))
    (steps : List (PathStep (List Byte))) : Prop
  | reached (h : Reached s.1.tree start steps) (hresult : s.2 = 0)
  | atFile (h : AtFile s.1.tree start steps) (hresult : s.2 = 0)
  | blocked (h : Blocked s.1.tree start steps) (hresult : 0 < s.2)

/-- What no step of the loop changes: the working directory, and where files are. -/
structure KeepsFiles (s s' : FileSystem × ℕ) : Prop where
  cwd_eq : s'.1.cwd = s.1.cwd
  file_iff : ∀ loc, s'.1.tree.node loc = some .file ↔ s.1.tree.node loc = some .file

theorem KeepsFiles.refl (s : FileSystem × ℕ) : KeepsFiles s s := ⟨rfl, fun _ => Iff.rfl⟩

theorem KeepsFiles.trans {s'' : FileSystem × ℕ} (h : KeepsFiles s s') (h' : KeepsFiles s' s'') :
    KeepsFiles s s'' :=
  ⟨h'.cwd_eq.trans h.cwd_eq, fun loc => (h'.file_iff loc).trans (h.file_iff loc)⟩

section Try

variable (hne : dir ≠ []) (hnul : 0 ∉ dir)

include hne hnul

/-- A directory that is there is left alone. -/
theorem tryDirectory_of_reached (h : Reached s.1.tree (s.1.start dir) (pathSteps dir)) :
    tryDirectory s dir = s := by
  have htext : (CString.ofText dir).text = dir := CString.text_ofText hnul
  have hdir : s.1.dirExists (.ofText dir) = true :=
    dirExists_of_reached (htext.symm ▸ hne) (htext.symm ▸ h)
  exact if_neg fun h => h.2 hdir

theorem tryDirectory_of_error {e : MkdirError} (hdir : s.1.dirExists (.ofText dir) = false)
    (h : s.1.tree.mkdir (pathSteps dir) (s.1.start dir) = .error e) :
    tryDirectory s dir = (s.1, if e = .exists then s.2 else s.2 + 1) := by
  have htext : (CString.ofText dir).text = dir := CString.text_ofText hnul
  rw [tryDirectory, if_pos ⟨hne, Bool.eq_false_iff.mp hdir⟩,
    createDirectory_of_error (htext.symm ▸ hne) (htext.symm ▸ h)]
  cases e <;> rfl

/-- Where a file stands in its place, nothing is made and no failure counted. -/
theorem tryDirectory_of_atFile (h : AtFile s.1.tree (s.1.start dir) (pathSteps dir)) :
    tryDirectory s dir = s := by
  have htext : (CString.ofText dir).text = dir := CString.text_ofText hnul
  have hmkdir := mkdir_of_exists h.1 (h.2.symm ▸ Option.some_ne_none _)
  exact tryDirectory_of_error hne hnul (dirExists_of_atFile (htext.symm ▸ h)) hmkdir

/-- Behind a file nothing can be made. -/
theorem tryDirectory_of_blocked (h : Blocked s.1.tree (s.1.start dir) (pathSteps dir)) :
    tryDirectory s dir = (s.1, s.2 + 1) := by
  have htext : (CString.ofText dir).text = dir := CString.text_ofText hnul
  exact tryDirectory_of_error hne hnul (dirExists_of_blocked (htext.symm ▸ h))
    (mkdir_of_blocked h)

/-- A directory that is missing is made. -/
theorem tryDirectory_of_missing {step : PathStep (List Byte)}
    (h : Reached s.1.tree (s.1.start dir) steps) (hsteps : pathSteps dir = steps ++ [step])
    (hnew : s.1.tree.node (PathStep.applyAll (pathSteps dir) (s.1.start dir)) = none) :
    Reached (tryDirectory s dir).1.tree (s.1.start dir) (pathSteps dir)
      ∧ (tryDirectory s dir).2 = s.2 ∧ KeepsFiles s (tryDirectory s dir) := by
  have htext : (CString.ofText dir).text = dir := CString.text_ofText hnul
  obtain ⟨tree, hmkdir, hreached⟩ := exists_mkdir_of_reached h (hsteps ▸ hnew)
  rw [← hsteps] at hmkdir hreached
  have hdir : ¬s.1.dirExists (.ofText dir) = true := by
    rw [FileSystem.dirExists, decide_eq_true_eq, htext, hsteps,
      walk_of_open (open_concat_iff.mpr h), Option.bind_some, ← hsteps, hnew]
    exact fun h => absurd h.2 (by decide)
  have hmade : tryDirectory s dir
      = (⟨tree, s.1.cwd, node_mono_of_mkdir hmkdir s.1.cwd_directory⟩, s.2) := by
    have hcreate := createDirectory_of_ok (htext.symm ▸ hne : (CString.ofText dir).text ≠ [])
      (htext.symm ▸ hmkdir)
    rw [tryDirectory, if_pos ⟨hne, hdir⟩, hcreate]
    rfl
  rw [hmade]
  exact ⟨hreached, rfl, rfl, node_eq_file_iff_of_mkdir hmkdir⟩

theorem phase_of_reached (h : Reached s.1.tree (s.1.start dir) (pathSteps dir))
    (hresult : s.2 = 0) : Phase (tryDirectory s dir) (s.1.start dir) (pathSteps dir)
      ∧ KeepsFiles s (tryDirectory s dir) := by
  rw [tryDirectory_of_reached hne hnul h]
  exact ⟨.reached h hresult, .refl s⟩

theorem phase_of_atFile (h : AtFile s.1.tree (s.1.start dir) (pathSteps dir))
    (hresult : s.2 = 0) : Phase (tryDirectory s dir) (s.1.start dir) (pathSteps dir)
      ∧ KeepsFiles s (tryDirectory s dir) := by
  rw [tryDirectory_of_atFile hne hnul h]
  exact ⟨.atFile h hresult, .refl s⟩

theorem phase_of_blocked (h : Blocked s.1.tree (s.1.start dir) (pathSteps dir)) :
    Phase (tryDirectory s dir) (s.1.start dir) (pathSteps dir)
      ∧ KeepsFiles s (tryDirectory s dir) := by
  rw [tryDirectory_of_blocked hne hnul h]
  exact ⟨.blocked h (Nat.succ_pos _), rfl, fun _ => Iff.rfl⟩

/-- A step on from a directory: to a directory, to a file, or to nothing. -/
theorem phase_of_step {step : PathStep (List Byte)} (hsteps : pathSteps dir = steps ++ [step])
    (h : Reached s.1.tree (s.1.start dir) steps) (hresult : s.2 = 0) :
    Phase (tryDirectory s dir) (s.1.start dir) (pathSteps dir)
      ∧ KeepsFiles s (tryDirectory s dir) := by
  have hopen := hsteps ▸ open_concat_iff.mpr h
  cases hnode : s.1.tree.node (PathStep.applyAll (pathSteps dir) (s.1.start dir)) with
  | none =>
    obtain ⟨hmade, heq, hkeeps⟩ := tryDirectory_of_missing hne hnul h hsteps hnode
    exact ⟨.reached hmade (heq.trans hresult), hkeeps⟩
  | some node =>
    cases node with
    | directory => exact phase_of_reached hne hnul ⟨hopen, hnode⟩ hresult
    | file => exact phase_of_atFile hne hnul ⟨hopen, hnode⟩ hresult

/-- **One directory more.** -/
theorem phase_tryDirectory (hstart : s.1.start dir = start)
    (hsteps : pathSteps dir = steps ∨ ∃ step, pathSteps dir = steps ++ [step])
    (h : Phase s start steps) :
    Phase (tryDirectory s dir) start (pathSteps dir) ∧ KeepsFiles s (tryDirectory s dir) := by
  subst hstart
  rcases hsteps with hsame | ⟨step, hmore⟩
  · rw [← hsame] at h
    cases h with
    | reached h hresult => exact phase_of_reached hne hnul h hresult
    | atFile h hresult => exact phase_of_atFile hne hnul h hresult
    | blocked h _ => exact phase_of_blocked hne hnul h
  · cases h with
    | reached h hresult => exact phase_of_step hne hnul hmore h hresult
    | atFile h _ =>
      exact phase_of_blocked hne hnul (hmore ▸ blocked_concat_iff.mpr (.inr h.2))
    | blocked h _ =>
      exact phase_of_blocked hne hnul (hmore ▸ blocked_concat_iff.mpr (.inl h))

end Try

/-- The loop stands behind a separator, or at the start. -/
def AtBreak (before : List Byte) : Prop := before = [] ∨ ∃ init, before = init ++ [kDirSeparator]

theorem pathSteps_append {before token : List Byte} (h : AtBreak before) :
    pathSteps (before ++ token) = pathSteps before ++ pathSteps token := by
  rcases h with rfl | ⟨init, rfl⟩
  · rw [List.nil_append, pathSteps_nil, List.nil_append]
  · rw [← List.append_cons, pathSteps_append_separator, pathSteps_append_separator init [],
      pathSteps_nil, List.append_nil]

/-- From one break to the next there is one component at most. -/
theorem pathSteps_append_token {before token : List Byte} (h : AtBreak before)
    (htoken : kDirSeparator ∉ token) : pathSteps (before ++ token) = pathSteps before
      ∨ ∃ step, pathSteps (before ++ token) = pathSteps before ++ [step] := by
  rw [pathSteps_append h, pathSteps_of_notMem htoken]
  split_ifs
  · exact .inl (List.append_nil _)
  · exact .inr ⟨_, rfl⟩

theorem start_append (fs : FileSystem) {before : List Byte} (hne : before ≠ [])
    (rest : List Byte) : fs.start (before ++ rest) = fs.start before := by
  rw [FileSystem.start, FileSystem.start, List.head?_append_of_ne_nil _ hne]

theorem KeepsFiles.start_eq (h : KeepsFiles s s') (path : List Byte) :
    s'.1.start path = s.1.start path := by
  rw [FileSystem.start, FileSystem.start, h.cwd_eq]

/-- What is in front of a separator may be empty: then nothing is tried. -/
theorem phase_take {next : ℕ} (hnul : 0 ∉ sanitizedPath) (hle : pos ≤ next)
    (hbreak : AtBreak (sanitizedPath.take pos))
    (hfree : kDirSeparator ∉ (sanitizedPath.drop pos).take (next - pos))
    (h : Phase s (s.1.start sanitizedPath) (pathSteps (sanitizedPath.take pos))) :
    Phase (tryDirectory s (sanitizedPath.take next)) (s.1.start sanitizedPath)
        (pathSteps (sanitizedPath.take next))
      ∧ KeepsFiles s (tryDirectory s (sanitizedPath.take next)) := by
  have htake : sanitizedPath.take next
      = sanitizedPath.take pos ++ (sanitizedPath.drop pos).take (next - pos) := by
    rw [← List.take_add, Nat.add_sub_cancel' hle]
  by_cases hne : sanitizedPath.take next = []
  · rw [tryDirectory, if_neg fun h => h.1 hne, hne]
    rw [(List.append_eq_nil_iff.mp (htake.symm.trans hne)).1] at h
    exact ⟨h, .refl s⟩
  · have hstart := start_append s.1 hne (sanitizedPath.drop next)
    rw [List.take_append_drop] at hstart
    exact phase_tryDirectory hne (fun hmem => hnul (List.mem_of_mem_take hmem)) hstart.symm
      (htake ▸ pathSteps_append_token hbreak hfree) h

/-- Behind the separator that is found there is a break. -/
theorem take_succ_of_find {next : ℕ} (h : find sanitizedPath [kDirSeparator] pos = some next) :
    sanitizedPath.take (next + 1) = sanitizedPath.take next ++ [kDirSeparator] := by
  obtain ⟨hin, token, htoken, -, hdrop⟩ := @drop_of_find _ [kDirSeparator] _ _ (by decide) h
  rw [List.length_singleton] at hin hdrop
  have hlen : token.length = next - pos := by
    rw [← htoken, List.length_take, List.length_drop]
    omega
  have hat : sanitizedPath[next]? = some kDirSeparator := by
    have hsum : next = pos + token.length := by have := le_of_find h; omega
    rw [hsum, ← List.getElem?_drop, hdrop, List.append_assoc, List.getElem?_append_right le_rfl,
      Nat.sub_self]
    rfl
  rw [List.take_add_one, hat, Option.toList_some]

/-- **The loop goes along the whole path.** -/
theorem phase_createLoop (hnul : 0 ∉ sanitizedPath) (hbreak : AtBreak (sanitizedPath.take pos))
    (h : Phase s (s.1.start sanitizedPath) (pathSteps (sanitizedPath.take pos))) :
    Phase (createLoop sanitizedPath s pos) (s.1.start sanitizedPath) (pathSteps sanitizedPath)
      ∧ KeepsFiles s (createLoop sanitizedPath s pos) := by
  fun_induction createLoop sanitizedPath s pos with
  | case1 s pos hpos nextPos hfind hle ih =>
    obtain ⟨-, token, rfl, hfree, hdrop⟩ :=
      @drop_of_find _ [kDirSeparator] _ _ (by decide) hfind
    rw [List.singleton_infix_iff] at hfree
    have hnext : sanitizedPath.take (nextPos + 1)
        = sanitizedPath.take nextPos ++ [kDirSeparator] := take_succ_of_find hfind
    obtain ⟨hphase, hkeeps⟩ := phase_take hnul hle hbreak hfree h
    rw [hnext, pathSteps_append_separator, pathSteps_nil, List.append_nil, hkeeps.start_eq] at ih
    obtain ⟨hloop, hkeeps'⟩ := ih (.inr ⟨_, rfl⟩) hphase
    exact ⟨hloop, hkeeps.trans hkeeps'⟩
  | case2 s pos hpos hfind =>
    have hfree := not_infix_of_find hfind
    rw [List.singleton_infix_iff] at hfree
    have hphase := phase_take hnul hpos.le hbreak (fun h => hfree (List.mem_of_mem_take h)) h
    rw [List.take_length] at hphase
    rwa [createLoop, if_neg (Nat.lt_irrefl _)]
  | case3 s pos hpos =>
    rw [List.take_of_length_le (Nat.le_of_not_lt hpos)] at h
    exact ⟨h, .refl s⟩

end Loop

/-! ## What success means -/

section Success

open FileTree

variable {fs fs' : FileSystem} {path : List Byte}

/-- **The directories of a path are there**: the path's own, and that in front of each of its
separators. -/
structure DirectoriesExist (fs : FileSystem) (path : List Byte) : Prop where
  itself : fs.dirExists (.ofText path) = true
  parents : ∀ dir rest, path = dir ++ kDirSeparator :: rest → dir ≠ [] →
    fs.dirExists (.ofText dir) = true

/-- **A path leads to a file**: none of its steps but the last leads to one. -/
structure LeadsToFile (fs : FileSystem) (path : List Byte) : Prop where
  file : fs.tree.node (PathStep.applyAll (pathSteps path) (fs.start path)) = some .file
  first : ∀ steps, steps <+: pathSteps path → steps ≠ pathSteps path →
    fs.tree.node (PathStep.applyAll steps (fs.start path)) ≠ some .file

theorem directoriesExist_of_reached (hnul : 0 ∉ path) (hne : path ≠ [])
    (h : Reached fs.tree (fs.start path) (pathSteps path)) : DirectoriesExist fs path where
  itself := by
    have htext : (CString.ofText path).text = path := CString.text_ofText hnul
    exact dirExists_of_reached (htext.symm ▸ hne) (htext.symm ▸ h)
  parents dir rest hsplit hdir := by
    have htext : (CString.ofText dir).text = dir :=
      CString.text_ofText fun hmem => hnul (hsplit ▸ List.mem_append_left _ hmem)
    rw [hsplit, pathSteps_append_separator, start_append fs hdir] at h
    exact dirExists_of_reached (htext.symm ▸ hdir) (htext.symm ▸ h.of_append)

/-- **What the loop leaves behind**, by where the path leads. -/
theorem phase_createDirectories (fs : FileSystem) (path : CString) :
    Phase (createDirectories fs path) (fs.start (sanitizeComponent path true))
        (pathSteps (sanitizeComponent path true))
      ∧ KeepsFiles (fs, 0) (createDirectories fs path) := by
  refine phase_createLoop (nul_notMem_sanitizeComponent path) (.inl List.take_zero)
    (.reached ⟨?_, ?_⟩ rfl)
  · rw [List.take_zero, pathSteps_nil]
    exact fun init hinit hne => absurd (List.prefix_nil.mp hinit) hne
  · rw [List.take_zero, pathSteps_nil, FileSystem.start]
    change fs.tree.node (if _ then _ else _) = _
    split_ifs
    · exact fs.tree.root
    · exact fs.cwd_directory

/-- **A file at the end of the path** is taken for the directory. -/
theorem not_directoriesExist_of_leadsToFile {path : CString}
    (hfile : LeadsToFile fs (sanitizeComponent path true)) :
    (createDirectories fs path).2 = 0
      ∧ ¬DirectoriesExist (createDirectories fs path).1 (sanitizeComponent path true) := by
  obtain ⟨hphase, hkeeps⟩ := phase_createDirectories fs path
  cases hphase with
  | reached h _ =>
    have hnode := (hkeeps.file_iff _).mpr hfile.file
    rw [h.2] at hnode
    cases hnode
  | atFile h hresult =>
    refine ⟨hresult, fun hexist => ?_⟩
    refine absurd hexist.itself (Bool.eq_false_iff.mp (dirExists_of_atFile ?_))
    rwa [CString.text_ofText (nul_notMem_sanitizeComponent path), hkeeps.start_eq]
  | blocked h _ =>
    obtain ⟨steps, hsteps, hlast, hnode⟩ := h
    exact absurd ((hkeeps.file_iff _).mp hnode) (hfile.first steps hsteps hlast)

/-- For the empty path nothing is done. -/
theorem createDirectories_of_empty {path : CString} (h : sanitizeComponent path true = []) :
    createDirectories fs path = (fs, 0) := by
  rw [createDirectories, h, createLoop]
  rfl

/-- **When success means that the directories are there**: for all paths but the empty one and
those that lead to a file. -/
theorem createDirectories_iff (fs : FileSystem) (path : CString) :
    ((createDirectories fs path).2 = 0 →
        DirectoriesExist (createDirectories fs path).1 (sanitizeComponent path true))
      ↔ sanitizeComponent path true ≠ [] ∧ ¬LeadsToFile fs (sanitizeComponent path true) := by
  obtain ⟨hphase, hkeeps⟩ := phase_createDirectories fs path
  have hnul := nul_notMem_sanitizeComponent path
  have hstart : (createDirectories fs path).1.start _ = fs.start _ :=
    hkeeps.start_eq (sanitizeComponent path true)
  constructor
  · intro h
    refine ⟨fun hempty => ?_, fun hfile => ?_⟩
    · rw [createDirectories_of_empty hempty, hempty] at h
      exact absurd (h rfl).itself (Bool.eq_false_iff.mp (decide_eq_false fun h => h.1 rfl))
    · obtain ⟨hresult, hexist⟩ := not_directoriesExist_of_leadsToFile hfile
      exact hexist (h hresult)
  · rintro ⟨hne, hfile⟩ hresult
    cases hphase with
    | reached h _ => exact directoriesExist_of_reached hnul hne (hstart ▸ h)
    | atFile h _ =>
      refine absurd ⟨(hkeeps.file_iff _).mp h.2, fun steps hsteps hlast hnode => ?_⟩ hfile
      have hdirectory := h.1 steps hsteps hlast
      rw [(hkeeps.file_iff _).mpr hnode] at hdirectory
      cases hdirectory
    | blocked _ hpos => exact absurd hresult hpos.ne'

/-- A root directory with nothing but a file in it, called `logs`. -/
def FileSystem.withFile : FileSystem where
  tree :=
    { node := fun loc => match loc with
        | [] => some .directory
        | [name] => if name = ascii "logs" then some .file else none
        | _ :: _ :: _ => none
      root := rfl
      parent := fun {loc} h => match loc with
        | [] | [_] => rfl
        | _ :: _ :: _ => absurd rfl h }
  cwd := []
  cwd_directory := rfl

theorem leadsToFile_withFile : LeadsToFile .withFile (ascii "logs") := by
  have hsteps : pathSteps (ascii "logs") = [] ++ [.down (ascii "logs")] :=
    pathSteps_of_notMem (by decide)
  refine ⟨by rw [hsteps]; rfl, fun steps hinit hlast => ?_⟩
  rw [hsteps] at hinit hlast
  rcases List.prefix_concat_iff.mp hinit with rfl | hnil
  · exact absurd rfl hlast
  · rw [List.prefix_nil.mp hnil]
    exact fun h => nomatch h

/-- The directory `logs` is asked for, and a file has its name. -/
theorem not_directoriesExist_file : (createDirectories .withFile (.literal "logs")).2 = 0
    ∧ ¬DirectoriesExist (createDirectories .withFile (.literal "logs")).1
        (sanitizeComponent (.literal "logs") true) := by
  have hsanitized : sanitizeComponent (.literal "logs") true = ascii "logs" := by decide
  exact not_directoriesExist_of_leadsToFile (hsanitized.symm ▸ leadsToFile_withFile)

end Success

end Femtolog
