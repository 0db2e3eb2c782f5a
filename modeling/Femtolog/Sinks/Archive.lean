import Mathlib.Data.List.AList
import Femtolog.Core.FileUtil
import Femtolog.Core.Paths
import Femtolog.Foundations.FirstFree

/-!
# Sinks/Archive — the archive a file sink moves an old log to

A file sink that finds a log of an earlier run under its path compresses it before it starts a new
one.  The archive is called like the log with the time of the construction, and a number if there is
such a file already.  The numbers are tried in turn: their names all differ, so one of them is free
while fewer files exist than an `int` can count, and no construction touches a file other than the
log itself (`archivesSafe`).
-/

namespace Femtolog

namespace Archive

/-! ## The name -/

/-- The largest `int`. -/
def kIntMax : ℕ := 2 ^ 31 - 1

/-- `compressed_file_name`. -/
def compressedFileName (filePath timestamp : List Byte) (counter : ℕ) : List Byte :=
  fileNameWithoutExtension filePath ++ ascii "_" ++ timestamp
    ++ (if 0 < counter then ascii "-" ++ decimal counter else [])
    ++ ascii "." ++ fileExtension filePath ++ ascii ".gz"

/-- `dest_path`, as it is passed to the system. -/
def destPath (filePath timestamp : List Byte) (counter : ℕ) : CString :=
  .ofText (joinPath [parentDir filePath, compressedFileName filePath timestamp counter])

/-! ## Files -/

/-- The regular files, each with what it holds. -/
abbrev Files := AList fun _ : CString => List Byte

/-- The `do`–`while` loop of the constructors of `FileSink` and `JsonLinesSink`, undefined where
`counter++` overflows. -/
def archivePath (files : Files) (filePath timestamp : CString) : Option CString :=
  (firstFree (fun counter => destPath filePath.text timestamp.text counter ∈ files) kIntMax 0).map
    (destPath filePath.text timestamp.text)

/-- `compress(src_path, dest_path, true)`, with what it leaves at the destination. -/
def Files.compress (files : Files) (o : Compress.Outcomes) (archived : List Byte)
    (srcPath destPath : CString) : Files :=
  if o.fopen = false ∨ o.gzopen = false then files
  else
    let files' := files.insert destPath archived
    if (Compress.compress o ((files.lookup srcPath).getD []) true).removed then
      files'.erase srcPath
    else files'

/-- `create_file`. -/
def Files.createFile (files : Files) (path : CString) : Files :=
  if path ∈ files then files else files.insert path []

/-- What a file sink appends to its log. -/
def Files.append (files : Files) (path : CString) (text : List Byte) : Files :=
  files.insert path ((files.lookup path).getD [] ++ text)

/-! ## Constructions -/

/-- One construction of a sink: the time as text, how the compression turns out, and what is logged
until the next one, if it could be opened. -/
structure Construction where
  timestamp : CString
  outcomes : Compress.Outcomes
  archived : List Byte
  opened : Bool
  logged : List Byte

/-- The constructor, as far as it touches files, and the sink's log. -/
def construct (filePath : CString) (files : Files) (c : Construction) : Option Files :=
  let rotated :=
    if filePath ∈ files then
      (archivePath files filePath c.timestamp).map fun destPath =>
        Files.compress files c.outcomes c.archived filePath destPath
    else some files
  rotated.map fun files =>
    if c.opened then (files.createFile filePath).append filePath c.logged else files

/-! ## The names tried -/

section Names

variable {filePath timestamp : CString}

/-- The number in a name. -/
def numberText (counter : ℕ) : List Byte :=
  if 0 < counter then ascii "-" ++ decimal counter else []

theorem numberText_injective : Function.Injective numberText := fun m n h => by
  have hdash : ∀ k, 0 < k → numberText k = 0x2D :: decimal k := fun k hk => if_pos hk
  rcases Nat.eq_zero_or_pos m with rfl | hm <;> rcases Nat.eq_zero_or_pos n with rfl | hn
  · rfl
  · rw [hdash n hn] at h
    cases h
  · rw [hdash m hm] at h
    cases h
  · rw [hdash m hm, hdash n hn, List.cons_eq_cons] at h
    exact decimal_injective h.2

theorem compressedFileName_eq (filePath timestamp : List Byte) (counter : ℕ) :
    compressedFileName filePath timestamp counter
      = fileNameWithoutExtension filePath ++ 0x5F :: (timestamp ++ (numberText counter
        ++ 0x2E :: (fileExtension filePath ++ ascii ".gz"))) := by
  simp only [compressedFileName, List.append_assoc]
  rfl

theorem nul_notMem_numberText (counter : ℕ) : 0 ∉ numberText counter := by
  rw [numberText]
  split_ifs
  · rw [List.mem_append, not_or]
    exact ⟨by decide, fun h => absurd (mem_decimal h).1 (by decide)⟩
  · exact List.not_mem_nil

theorem nul_notMem_compressedFileName (filePath timestamp : CString) (counter : ℕ) :
    0 ∉ compressedFileName filePath.text timestamp.text counter := by
  rw [compressedFileName_eq]
  simp only [List.mem_append, List.mem_cons, not_or]
  exact ⟨fun h => filePath.notMem (fileNameWithoutExtension_subset _ h), by decide,
    timestamp.notMem, nul_notMem_numberText counter, by decide,
    fun h => filePath.notMem (fileExtension_subset _ h), by decide⟩

/-- The name starts like the log's own, or with the `_` behind it. -/
theorem head?_compressedFileName_ne (filePath timestamp : List Byte) (counter : ℕ) :
    (compressedFileName filePath timestamp counter).head? ≠ some kDirSeparator := by
  rw [compressedFileName_eq]
  cases hstem : fileNameWithoutExtension filePath with
  | nil => simp [kDirSeparator]
  | cons c stem =>
    intro h
    refine separator_notMem_fileNameWithoutExtension filePath ?_
    rw [hstem, ← Option.some_inj.mp h]
    exact List.mem_cons_self

theorem getLast?_compressedFileName_ne (filePath timestamp : List Byte) (counter : ℕ) :
    (compressedFileName filePath timestamp counter).getLast? ≠ some kDirSeparator := by
  rw [compressedFileName, List.getLast?_append_of_ne_nil _ (by decide)]
  decide

theorem compressedFileName_ne_nil (filePath timestamp : List Byte) (counter : ℕ) :
    compressedFileName filePath timestamp counter ≠ [] := by
  rw [compressedFileName_eq]
  simp

/-- **The path of an archive** is its name behind the directory. -/
theorem text_destPath (filePath timestamp : CString) (counter : ℕ) :
    (destPath filePath.text timestamp.text counter).text = dirPrefix (parentDir filePath.text)
      ++ compressedFileName filePath.text timestamp.text counter := by
  have hnul := nul_notMem_compressedFileName filePath timestamp counter
  rw [destPath, joinPath_pair _ (compressedFileName_ne_nil _ _ _) hnul
    (head?_compressedFileName_ne _ _ _) (getLast?_compressedFileName_ne _ _ _), CString.text_ofText]
  rw [List.mem_append, not_or]
  exact ⟨nul_notMem_dirPrefix _, hnul⟩

/-- **Different numbers make different archives.** -/
theorem destPath_injective (filePath timestamp : CString) :
    Function.Injective (destPath filePath.text timestamp.text) := fun m n h => by
  have htext := congrArg CString.text h
  rw [text_destPath, text_destPath, compressedFileName_eq, compressedFileName_eq] at htext
  have hnumber := List.append_cancel_left (List.append_cancel_left htext)
  rw [List.cons_eq_cons, List.append_cancel_left_eq, List.append_cancel_right_eq] at hnumber
  exact numberText_injective hnumber.2

/-- No archive is the log itself: its path is longer. -/
theorem destPath_ne (filePath timestamp : CString) (counter : ℕ) :
    destPath filePath.text timestamp.text counter ≠ filePath := fun h => by
  have hlen := congrArg (fun path : CString => path.text.length) h
  have hparent : 0 ∉ parentDir filePath.text := fun h => by
    rw [parentDir] at h
    split at h
    · exact List.not_mem_nil h
    · exact filePath.notMem (List.mem_of_mem_take h)
  have hdir := length_le_dirPrefix hparent
  have hparts := length_le_parts filePath.text
  simp only [text_destPath, compressedFileName_eq, List.length_append, List.length_cons,
    show (ascii ".gz").length = 3 from rfl] at hlen
  omega

end Names

/-! ## Constructions one after the other -/

section Runs

variable {filePath timestamp path : CString} {files files' : Files} {c : Construction}

/-- **The loop ends with a new path** while fewer files exist than an `int` can count. -/
theorem exists_archivePath (timestamp : CString) (hlog : filePath ∈ files)
    (hcard : files.keys.length < 2 ^ 31) : ∃ dest, archivePath files filePath timestamp = some dest
      ∧ dest ∉ files ∧ dest ≠ filePath := by
  have hmem : filePath ∈ files.keys.toFinset := List.mem_toFinset.mpr (AList.mem_keys.mp hlog)
  have hcard' : (files.keys.toFinset.erase filePath).card < kIntMax := by
    rw [Finset.card_erase_of_mem hmem, List.toFinset_card_of_nodup files.keys_nodup, kIntMax]
    have := List.length_pos_of_mem (List.mem_toFinset.mp hmem)
    omega
  have htaken : ∀ k, decide (destPath filePath.text timestamp.text k ∈ files) = true →
      destPath filePath.text timestamp.text k ∈ files.keys.toFinset.erase filePath := fun k hk =>
    Finset.mem_erase.mpr ⟨destPath_ne filePath timestamp k,
      List.mem_toFinset.mpr (AList.mem_keys.mp (of_decide_eq_true hk))⟩
  obtain ⟨k, hk⟩ := exists_firstFree_of_injective (destPath_injective filePath timestamp) htaken
    hcard'
  exact ⟨_, by rw [archivePath, hk, Option.map_some],
    of_decide_eq_false (eq_false_of_firstFree hk), destPath_ne filePath timestamp k⟩

/-- What the loop ends with is new. -/
theorem notMem_of_archivePath {dest : CString}
    (h : archivePath files filePath timestamp = some dest) : dest ∉ files := by
  obtain ⟨k, hk, rfl⟩ := Option.map_eq_some_iff.mp h
  exact of_decide_eq_false (eq_false_of_firstFree hk)

/-- A compression touches its source and its destination only. -/
theorem lookup_compress {o : Compress.Outcomes} {archived : List Byte} {srcPath dest : CString}
    (hsrc : path ≠ srcPath) (hdest : path ≠ dest) :
    (files.compress o archived srcPath dest).lookup path = files.lookup path := by
  rw [Files.compress]
  dsimp only
  split_ifs
  · rfl
  · rw [AList.lookup_erase_ne hsrc, AList.lookup_insert_ne hdest]
  · rw [AList.lookup_insert_ne hdest]

theorem lookup_append {text : List Byte} (h : path ≠ filePath) :
    ((files.createFile filePath).append filePath text).lookup path = files.lookup path := by
  rw [Files.append, AList.lookup_insert_ne h, Files.createFile]
  split_ifs
  · rfl
  · rw [AList.lookup_insert_ne h]

/-- **A construction leaves every file but the log as it is.** -/
theorem lookup_of_construct (h : construct filePath files c = some files') (hne : path ≠ filePath)
    {text : List Byte} (htext : files.lookup path = some text) :
    files'.lookup path = some text := by
  obtain ⟨rotated, hrotated, rfl⟩ := Option.map_eq_some_iff.mp h
  have hkept : rotated.lookup path = some text := by
    split_ifs at hrotated
    · obtain ⟨dest, hdest, rfl⟩ := Option.map_eq_some_iff.mp hrotated
      have hnew : path ≠ dest := by
        rintro rfl
        exact notMem_of_archivePath hdest
          (AList.lookup_isSome.mp (Option.isSome_of_eq_some htext))
      rw [lookup_compress hne hnew, htext]
    · exact Option.some_inj.mp hrotated ▸ htext
  split_ifs
  · rw [lookup_append hne, hkept]
  · exact hkept

theorem exists_construct (filePath : CString) (c : Construction)
    (hcard : files.keys.length < 2 ^ 31) : ∃ files', construct filePath files c = some files' := by
  by_cases hlog : filePath ∈ files
  · obtain ⟨dest, hdest, -⟩ := exists_archivePath c.timestamp hlog hcard
    exact ⟨_, by rw [construct, if_pos hlog, hdest]; rfl⟩
  · exact ⟨_, by rw [construct, if_neg hlog]; rfl⟩

/-- Only the log is new behind what a sink does to its own file. -/
theorem mem_of_logged {rotated : Files} {path : CString} {c : Construction}
    (h : path ∈ (if c.opened then (rotated.createFile filePath).append filePath c.logged
      else rotated)) : path = filePath ∨ path ∈ rotated := by
  rw [Files.append, Files.createFile] at h
  split_ifs at h
  · exact (AList.mem_insert _).mp h
  · rcases (AList.mem_insert _).mp h with heq | h
    · exact .inl heq
    · exact (AList.mem_insert _).mp h
  · exact .inr h

/-- Only the archive is new behind a compression. -/
theorem mem_of_compress {o : Compress.Outcomes} {archived : List Byte} {dest path : CString}
    (h : path ∈ files.compress o archived filePath dest) : path = dest ∨ path ∈ files := by
  rw [Files.compress] at h
  dsimp only at h
  split_ifs at h
  · exact .inr h
  · exact (AList.mem_insert _).mp (AList.mem_erase.mp h).2
  · exact (AList.mem_insert _).mp h

/-- All that is new behind a construction is the archive, or the log if there was none. -/
theorem exists_new_of_construct (h : construct filePath files c = some files') :
    ∃ new, ∀ path ∈ files', path = new ∨ path ∈ files := by
  obtain ⟨rotated, hrotated, rfl⟩ := Option.map_eq_some_iff.mp h
  split_ifs at hrotated with hexists
  · obtain ⟨dest, -, rfl⟩ := Option.map_eq_some_iff.mp hrotated
    refine ⟨dest, fun path hpath => ?_⟩
    rcases mem_of_logged hpath with rfl | hpath
    · exact .inr hexists
    · exact mem_of_compress hpath
  · obtain rfl := Option.some_inj.mp hrotated
    exact ⟨filePath, fun path hpath => mem_of_logged hpath⟩

/-- A construction makes one new file at most. -/
theorem length_keys_of_construct (h : construct filePath files c = some files') :
    files'.keys.length ≤ files.keys.length + 1 := by
  obtain ⟨new, hnew⟩ := exists_new_of_construct h
  have hsubset : files'.keys.toFinset ⊆ insert new files.keys.toFinset := fun path hpath =>
    Finset.mem_insert.mpr ((hnew path (List.mem_toFinset.mp hpath)).imp_right List.mem_toFinset.mpr)
  rw [← List.toFinset_card_of_nodup files'.keys_nodup,
    ← List.toFinset_card_of_nodup files.keys_nodup]
  exact (Finset.card_le_card hsubset).trans (Finset.card_insert_le _ _)

end Runs

/-- **Rotation is safe**: the loop ends with a path that no file has, one construction after the
other is carried out while fewer files exist than an `int` can count, and none changes a file other
than the log. -/
structure ArchivesSafe (filePath : CString) : Prop where
  terminates : ∀ (timestamp : CString) (files : Files), filePath ∈ files →
    files.keys.length < 2 ^ 31 → ∃ dest, archivePath files filePath timestamp = some dest
      ∧ dest ∉ files ∧ dest ≠ filePath
  defined : ∀ (constructions : List Construction) (files : Files),
    files.keys.length + constructions.length ≤ 2 ^ 31 →
      (constructions.foldlM (construct filePath) files).isSome
  kept : ∀ (constructions : List Construction) (files files' : Files),
    constructions.foldlM (construct filePath) files = some files' →
      ∀ path, path ≠ filePath → ∀ text, files.lookup path = some text →
        files'.lookup path = some text

/-- **No archive is ever overwritten**, whatever the log is called and the times are. -/
theorem archivesSafe (filePath : CString) : ArchivesSafe filePath where
  terminates timestamp _ hlog hcard := exists_archivePath timestamp hlog hcard
  defined constructions := by
    induction constructions with
    | nil => exact fun _ _ => rfl
    | cons c constructions ih =>
      intro files hcard
      rw [List.length_cons] at hcard
      have hlt : files.keys.length < 2 ^ 31 := by omega
      obtain ⟨files', hfiles'⟩ := exists_construct filePath c hlt
      rw [List.foldlM_cons, hfiles']
      have := length_keys_of_construct hfiles'
      exact ih files' (by omega)
  kept constructions := by
    induction constructions with
    | nil => exact fun files files' h path _ text htext => Option.some_inj.mp h ▸ htext
    | cons c constructions ih =>
      intro files files' h path hne text htext
      rw [List.foldlM_cons] at h
      obtain ⟨files₁, hfiles₁, hrest⟩ := Option.bind_eq_some_iff.mp h
      exact ih files₁ files' hrest path hne text (lookup_of_construct hfiles₁ hne htext)

/-- A log, and an archive that was made of an earlier one in the same second. -/
def takenFiles : Files :=
  (AList.singleton (CString.literal "latest.log") []).insert
    (destPath (ascii "latest.log") (ascii "2025-07-05_22-25-42") 0) []

/-- The first name is taken, and another one is found. -/
theorem archivesSafe_taken :
    destPath (ascii "latest.log") (ascii "2025-07-05_22-25-42") 0 ∈ takenFiles ∧
    ∃ dest, archivePath takenFiles (.literal "latest.log") (.literal "2025-07-05_22-25-42")
        = some dest
      ∧ dest ∉ takenFiles ∧ dest ≠ .literal "latest.log" :=
  ⟨(AList.mem_insert _).mpr (.inl rfl), (archivesSafe (.literal "latest.log")).terminates _ _
    ((AList.mem_insert _).mpr (.inr (AList.mem_keys.mpr List.mem_cons_self))) (by decide)⟩

end Archive

end Femtolog
