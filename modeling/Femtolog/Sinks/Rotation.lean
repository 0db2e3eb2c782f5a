import Femtolog.Foundations.Runs
import Femtolog.Sinks.Archive

/-!
# Sinks/Rotation — one log through any number of sinks

Sinks are constructed over one path one after the other, in one process or in several, and each
writes to the log it has opened, at its end (`O_APPEND`).  A construction that finds a log moves it
to an archive and removes it; the sinks constructed before keep their descriptors, to a file without
a name.

* `history_of_reaches` — as long as every rotation keeps the log, the archives in the order of their
  making and the log after them hold what the log held at first and then every write of a sink that
  was *live*: no later construction had removed the log.
* What the others write is in no file: the history is only that.
-/

namespace Femtolog

namespace Archive

/-! ## Steps -/

/-- One construction of a sink: the time as text, how the compression turns out, what it leaves, and
whether `create_file` makes a log and `open` opens it. -/
structure Opening where
  timestamp : CString
  outcomes : Compress.Outcomes
  archived : List Byte
  created : Bool
  opened : Bool

/-- The construction as it stands before anything is logged. -/
def Opening.construction (o : Opening) : Construction :=
  ⟨o.timestamp, o.outcomes, o.archived, o.opened, []⟩

/-- What a sink's descriptor is open on: the log, a log that has been removed, or nothing. -/
inductive Handle
  | log
  | removed
  | closed
  deriving DecidableEq

/-- The descriptor after the log has been removed. -/
def Handle.unlink : Handle → Handle
  | log => removed
  | removed => removed
  | closed => closed

/-- The descriptors after a construction has removed the log, if it has. -/
def unlinked (removed : Bool) (sinks : List Handle) : List Handle :=
  if removed then sinks.map Handle.unlink else sinks

/-- What has happened, in terms of the sinks in the order of their constructions. -/
inductive Happened
  | constructed (removed opened : Bool)
  | wrote (sink : ℕ) (text : List Byte)

/-- The files, the sinks' descriptors, the archives a log was moved to in the order of their making,
and what has happened, the last first. -/
structure Rotation where
  files : Files
  sinks : List Handle
  archives : List CString
  trace : List Happened

/-- A sink is constructed, or `write` or `writev` takes bytes from one. -/
inductive RotationEvent
  | construct (o : Opening)
  | write (sink : ℕ) (text : List Byte)

/-- What the file under a path holds. -/
def Files.log (files : Files) (path : CString) : List Byte := (files.lookup path).getD []

/-- The construction moves the log to an archive. -/
def removesLog (filePath : CString) (files : Files) (o : Opening) : Bool :=
  decide (filePath ∈ files) && (Compress.compress o.outcomes (files.log filePath) true).removed

namespace Rotation

variable (filePath : CString)

/-- The constructor. -/
def constructs (s : Rotation) (o : Opening) : Option Rotation :=
  (construct filePath s.files o.construction).map fun files =>
    let removed := removesLog filePath s.files o
    { files := if o.created then files.createFile filePath else files
      sinks := unlinked removed s.sinks ++ [if o.opened then .log else .closed]
      archives := s.archives
        ++ if removed then (archivePath s.files filePath o.timestamp).toList else []
      trace := .constructed removed o.opened :: s.trace }

/-- A write.  `flush` and `write_direct` return at once without a descriptor. -/
def writes (s : Rotation) (sink : ℕ) (text : List Byte) : Option Rotation :=
  match s.sinks[sink]? with
  | some .log =>
    some { s with files := s.files.append filePath text, trace := .wrote sink text :: s.trace }
  | some .removed => some { s with trace := .wrote sink text :: s.trace }
  | _ => none

/-- **One step.** -/
def step (s : Rotation) : RotationEvent → Option Rotation
  | .construct o => s.constructs filePath o
  | .write sink text => s.writes filePath sink text

/-- Files as they are found. -/
def init (files : Files) : Rotation := ⟨files, [], [], []⟩

/-- A sink whose file is the log has written. -/
def logged (s : Rotation) (sink : ℕ) (text : List Byte) : Rotation :=
  { s with files := s.files.append filePath text, trace := .wrote sink text :: s.trace }

/-- A sink whose file is no longer there has written. -/
def lost (s : Rotation) (sink : ℕ) (text : List Byte) : Rotation :=
  { s with trace := .wrote sink text :: s.trace }

theorem writes_of_log {filePath : CString} {s : Rotation} {sink : ℕ}
    (h : s.sinks[sink]? = some .log) (text : List Byte) :
    s.writes filePath sink text = some (s.logged filePath sink text) := by
  rw [writes, h]
  rfl

theorem writes_of_removed {filePath : CString} {s : Rotation} {sink : ℕ}
    (h : s.sinks[sink]? = some .removed) (text : List Byte) :
    s.writes filePath sink text = some (s.lost sink text) := by
  rw [writes, h]
  rfl

end Rotation

/-! ## What is kept -/

/-- How many sinks have been constructed. -/
def sinkCount : List Happened → ℕ
  | [] => 0
  | .constructed _ _ :: before => sinkCount before + 1
  | .wrote _ _ :: before => sinkCount before

/-- **The sink is live**: it could be opened, and no later construction has removed the log. -/
def live : List Happened → ℕ → Bool
  | [], _ => false
  | .constructed removed opened :: before, sink =>
    if sink = sinkCount before then opened else !removed && live before sink
  | .wrote _ _ :: before, sink => live before sink

/-- What live sinks have written, in order. -/
def kept : List Happened → List Byte
  | [] => []
  | .constructed _ _ :: before => kept before
  | .wrote sink text :: before => kept before ++ if live before sink then text else []

/-! ## The files behind a construction -/

section Files

variable {filePath path : CString} {files files' : Files} {o : Opening}

theorem log_append (text : List Byte) :
    (files.append filePath text).log filePath = files.log filePath ++ text := by
  rw [Files.log, Files.append, AList.lookup_insert]
  rfl

theorem log_createFile : (files.createFile filePath).log filePath = files.log filePath := by
  rw [Files.createFile]
  split_ifs with hmem
  · rfl
  · rw [Files.log, AList.lookup_insert, Files.log, AList.lookup_eq_none.mpr hmem]
    rfl

theorem lookup_createFile_ne (h : path ≠ filePath) :
    (files.createFile filePath).lookup path = files.lookup path := by
  rw [Files.createFile]
  split_ifs
  · rfl
  · rw [AList.lookup_insert_ne h]

/-- Opening the log leaves what it holds. -/
theorem log_opened (opened : Bool) :
    (if opened then (files.createFile filePath).append filePath [] else files).log filePath
      = files.log filePath := by
  cases opened with
  | false => rfl
  | true => rw [if_pos rfl, log_append, List.append_nil, log_createFile]

theorem lookup_opened_ne (opened : Bool) (h : path ≠ filePath) :
    (if opened then (files.createFile filePath).append filePath [] else files).lookup path
      = files.lookup path := by
  cases opened with
  | false => rfl
  | true => rw [if_pos rfl, lookup_append h]

/-- A log is removed only by a compression that has opened both files. -/
theorem opens_of_removed {o : Compress.Outcomes} {src : List Byte}
    (h : (Compress.compress o src true).removed = true) :
    ¬(o.fopen = false ∨ o.gzopen = false) := by
  rw [Compress.compress] at h
  rintro (hopen | hopen)
  · rw [if_pos hopen] at h
    cases h
  · rw [if_pos hopen] at h
    split_ifs at h

theorem ne_of_archivePath {timestamp dest : CString}
    (h : archivePath files filePath timestamp = some dest) : dest ≠ filePath := by
  obtain ⟨k, -, rfl⟩ := Option.map_eq_some_iff.mp h
  exact destPath_ne filePath timestamp k

/-- **A construction that removes the log** leaves an empty one, and the archive under a new
path. -/
theorem construct_of_removes (h : construct filePath files o.construction = some files')
    (hremoves : removesLog filePath files o = true) : ∃ dest,
      archivePath files filePath o.timestamp = some dest ∧ dest ∉ files ∧ dest ≠ filePath
        ∧ files'.lookup dest = some o.archived ∧ files'.log filePath = [] := by
  obtain ⟨hmem, hremoved⟩ := Bool.and_eq_true_iff.mp hremoves
  obtain ⟨rotated, hrotated, rfl⟩ := Option.map_eq_some_iff.mp h
  rw [if_pos (of_decide_eq_true hmem)] at hrotated
  obtain ⟨dest, hdest, rfl⟩ := Option.map_eq_some_iff.mp hrotated
  have hne := ne_of_archivePath hdest
  have hfiles : files.compress o.outcomes o.archived filePath dest
      = (files.insert dest o.archived).erase filePath := by
    rw [Files.compress, if_neg (opens_of_removed hremoved)]
    exact if_pos hremoved
  refine ⟨dest, hdest, notMem_of_archivePath hdest, hne, ?_, ?_⟩
  · refine (lookup_opened_ne _ hne).trans ?_
    change (files.compress o.outcomes o.archived filePath dest).lookup dest = _
    rw [hfiles, AList.lookup_erase_ne hne, AList.lookup_insert]
  · refine (log_opened _).trans ?_
    change (files.compress o.outcomes o.archived filePath dest).log filePath = _
    rw [hfiles, Files.log, AList.lookup_erase]
    rfl

/-- **…and one that does not** leaves what it holds. -/
theorem log_of_construct (h : construct filePath files o.construction = some files')
    (hremoves : removesLog filePath files o = false) :
    files'.log filePath = files.log filePath := by
  obtain ⟨rotated, hrotated, rfl⟩ := Option.map_eq_some_iff.mp h
  refine (log_opened _).trans ?_
  split_ifs at hrotated with hmem
  · obtain ⟨dest, hdest, rfl⟩ := Option.map_eq_some_iff.mp hrotated
    rw [removesLog, decide_eq_true hmem, Bool.true_and] at hremoves
    have hne := ne_of_archivePath hdest
    change (files.compress o.outcomes o.archived filePath dest).log filePath = _
    rw [Files.compress]
    dsimp only
    split_ifs with hopen hremoved
    · rfl
    · rw [Files.log] at hremoves
      rw [hremoves] at hremoved
      cases hremoved
    · rw [Files.log, AList.lookup_insert_ne hne.symm, Files.log]
  · rw [Option.some_inj.mp hrotated]

end Files

/-! ## The history of a log -/

/-- **The rotation keeps the log**: a log that is removed has been compressed completely, and the
archive decompresses to that. -/
def Opening.Keeps (gunzip : List Byte → Option (List Byte)) (filePath : CString) (files : Files)
    (o : Opening) : Prop :=
  removesLog filePath files o = true →
    Compress.KeepsLog o.outcomes (files.log filePath) true
      ∧ gunzip o.archived = (Compress.compress o.outcomes (files.log filePath) true).dest

/-- Every rotation of the run keeps the log. -/
def RotationEvent.Keeps (gunzip : List Byte → Option (List Byte)) (filePath : CString)
    (s : Rotation) : RotationEvent → Prop
  | .construct o => o.Keeps gunzip filePath s.files
  | .write _ _ => True

/-- What the archives decompress to, in the order of their making, and the log behind them. -/
def Rotation.history (gunzip : List Byte → Option (List Byte)) (filePath : CString)
    (s : Rotation) : List Byte :=
  s.archives.flatMap (fun path => ((s.files.lookup path).bind gunzip).getD [])
    ++ s.files.log filePath

section History

variable {gunzip : List Byte → Option (List Byte)} {filePath : CString} {s s' : Rotation}
  {o : Opening} {sink : ℕ} {text initial : List Byte}

/-- **The invariant**: the descriptors say who is live, the archives are there, and the history is
what was kept. -/
structure Recorded (gunzip : List Byte → Option (List Byte)) (filePath : CString)
    (initial : List Byte) (s : Rotation) : Prop where
  length_sinks : s.sinks.length = sinkCount s.trace
  live_iff : ∀ i, live s.trace i = true ↔ s.sinks[i]? = some .log
  archives : ∀ path ∈ s.archives, path ≠ filePath ∧ path ∈ s.files
  nodup : s.archives.Nodup
  history : s.history gunzip filePath = initial ++ kept s.trace

theorem length_unlinked (removed : Bool) (sinks : List Handle) :
    (unlinked removed sinks).length = sinks.length := by
  cases removed with
  | false => rfl
  | true => exact List.length_map _

/-- No descriptor is open on the log after it has been removed. -/
theorem unlinked_eq_log_iff {removed : Bool} {sinks : List Handle} {i : ℕ} :
    (unlinked removed sinks)[i]? = some .log ↔ removed = false ∧ sinks[i]? = some .log := by
  cases removed with
  | false => exact (and_iff_right rfl).symm
  | true =>
    rw [unlinked, if_pos rfl, List.getElem?_map]
    refine iff_of_false (fun hsome => ?_) fun hand => absurd hand.1 (by decide)
    obtain ⟨handle, -, hunlink⟩ := Option.map_eq_some_iff.mp hsome
    cases handle <;> cases hunlink

/-- The archives made before are as they were. -/
theorem flatMap_archives {files' : Files}
    (hsame : ∀ path ∈ s.archives, files'.lookup path = s.files.lookup path) :
    s.archives.flatMap (fun path => ((files'.lookup path).bind gunzip).getD [])
      = s.archives.flatMap (fun path => ((s.files.lookup path).bind gunzip).getD []) :=
  List.flatMap_congr fun path hpath => by rw [hsame path hpath]

/-- **A write** of a live sink is at the end of the log; one of another leaves the files alone. -/
theorem Recorded.writes (h : Recorded gunzip filePath initial s)
    (hstep : s.writes filePath sink text = some s') : Recorded gunzip filePath initial s' := by
  rw [Rotation.writes] at hstep
  split at hstep
  next hlog =>
    obtain rfl := Option.some_inj.mp hstep
    have hlive : live s.trace sink = true := (h.live_iff sink).mpr hlog
    have hsame : ∀ path ∈ s.archives,
        (s.files.append filePath text).lookup path = s.files.lookup path := fun path hpath =>
      AList.lookup_insert_ne (h.archives path hpath).1
    refine ⟨h.length_sinks, h.live_iff, fun path hpath => ?_, h.nodup, ?_⟩
    · obtain ⟨hne, hmem⟩ := h.archives path hpath
      exact ⟨hne, (AList.mem_insert _).mpr (.inr hmem)⟩
    · have hold := h.history
      rw [Rotation.history] at hold ⊢
      dsimp only
      rw [flatMap_archives hsame, log_append, ← List.append_assoc, hold, kept, if_pos hlive,
        List.append_assoc]
  next hremoved =>
    obtain rfl := Option.some_inj.mp hstep
    have hdead : ¬live s.trace sink = true := fun hlive => by
      rw [(h.live_iff sink).mp hlive] at hremoved
      cases hremoved
    refine ⟨h.length_sinks, h.live_iff, h.archives, h.nodup, ?_⟩
    rw [kept, if_neg hdead, List.append_nil]
    exact h.history
  next => cases hstep

/-- Behind a construction the descriptors still say who is live. -/
theorem Recorded.live_constructed (h : Recorded gunzip filePath initial s) (removed opened : Bool)
    (i : ℕ) : live (.constructed removed opened :: s.trace) i = true
      ↔ (unlinked removed s.sinks ++ [if opened then .log else .closed])[i]? = some .log := by
  have hlen : (unlinked removed s.sinks).length = sinkCount s.trace := by
    rw [length_unlinked, h.length_sinks]
  rw [live, ← hlen]
  rcases lt_trichotomy i (unlinked removed s.sinks).length with hlt | rfl | hgt
  · rw [if_neg hlt.ne, List.getElem?_append_left hlt, Bool.and_eq_true_iff, Bool.not_eq_true',
      h.live_iff, ← unlinked_eq_log_iff]
  · rw [if_pos rfl, List.getElem?_concat_length]
    cases opened <;> simp
  · rw [if_neg hgt.ne', Bool.and_eq_true_iff, Bool.not_eq_true', h.live_iff,
      ← unlinked_eq_log_iff, List.getElem?_eq_none hgt.le, List.getElem?_eq_none]
    rw [List.length_append, List.length_singleton]
    exact hgt

/-- **A construction** that keeps the log keeps the history: it goes on in the archive. -/
theorem Recorded.constructs (h : Recorded gunzip filePath initial s)
    (hkeeps : o.Keeps gunzip filePath s.files) (hstep : s.constructs filePath o = some s') :
    Recorded gunzip filePath initial s' := by
  obtain ⟨files', hfiles', rfl⟩ := Option.map_eq_some_iff.mp hstep
  have hcreated (path : CString) (hne : path ≠ filePath) :
      (if o.created then files'.createFile filePath else files').lookup path
        = files'.lookup path := by
    split_ifs
    · exact lookup_createFile_ne hne
    · rfl
  have hlog : (if o.created then files'.createFile filePath else files').log filePath
      = files'.log filePath := by
    split_ifs
    · exact log_createFile
    · rfl
  have hsame : ∀ path ∈ s.archives,
      (if o.created then files'.createFile filePath else files').lookup path
        = s.files.lookup path := fun path hpath => by
    obtain ⟨hne, hmem⟩ := h.archives path hpath
    obtain ⟨text, htext⟩ := Option.isSome_iff_exists.mp (AList.lookup_isSome.mpr hmem)
    rw [hcreated path hne, lookup_of_construct hfiles' hne htext, htext]
  have hthere : ∀ path ∈ s.archives, path ≠ filePath
      ∧ path ∈ (if o.created then files'.createFile filePath else files') := fun path hpath => by
    obtain ⟨hne, hmem⟩ := h.archives path hpath
    exact ⟨hne, AList.lookup_isSome.mp (hsame path hpath ▸ AList.lookup_isSome.mpr hmem)⟩
  have hlength : (unlinked (removesLog filePath s.files o) s.sinks
      ++ [if o.opened then Handle.log else .closed]).length
        = sinkCount (.constructed (removesLog filePath s.files o) o.opened :: s.trace) := by
    rw [List.length_append, List.length_singleton, sinkCount, ← h.length_sinks, length_unlinked]
  have hold := h.history
  rw [Rotation.history] at hold
  refine ⟨hlength, h.live_constructed _ _, ?_, ?_, ?_⟩
  all_goals dsimp only
  all_goals cases hremoves : removesLog filePath s.files o
  · rw [if_neg Bool.false_ne_true, List.append_nil]
    exact hthere
  · obtain ⟨dest, hdest, hnew, hne, hlookup, -⟩ := construct_of_removes hfiles' hremoves
    rw [if_pos rfl, hdest]
    intro path hpath
    rcases List.mem_append.mp hpath with hpath | hpath
    · exact hthere path hpath
    · obtain rfl := List.mem_singleton.mp hpath
      refine ⟨hne, AList.lookup_isSome.mp ?_⟩
      rw [hcreated path hne, hlookup]
      rfl
  · rw [if_neg Bool.false_ne_true, List.append_nil]
    exact h.nodup
  · obtain ⟨dest, hdest, hnew, -⟩ := construct_of_removes hfiles' hremoves
    rw [if_pos rfl, hdest]
    have hfresh : dest ∉ s.archives := fun hmem => hnew (h.archives dest hmem).2
    exact List.concat_eq_append ▸ h.nodup.concat hfresh
  · rw [Rotation.history]
    dsimp only
    rw [if_neg Bool.false_ne_true, List.append_nil, flatMap_archives hsame, hlog,
      log_of_construct hfiles' hremoves, hold, kept]
  · obtain ⟨dest, hdest, -, hne, hlookup, hempty⟩ := construct_of_removes hfiles' hremoves
    obtain ⟨hkeep, hstored⟩ := hkeeps hremoves
    have hall : gunzip o.archived = some (s.files.log filePath) :=
      hstored.trans (hkeep (Bool.and_eq_true_iff.mp hremoves).2)
    rw [Rotation.history]
    dsimp only
    rw [if_pos (rfl : true = true), hdest, List.flatMap_append, flatMap_archives hsame, hlog,
      hempty, List.append_nil, Option.toList_some, List.flatMap_singleton, hcreated dest hne,
      hlookup, Option.bind_some, hall, Option.getD_some, hold, kept]

/-- **Every step keeps the history.** -/
theorem Recorded.step (h : Recorded gunzip filePath initial s) {e : RotationEvent}
    (hkeeps : e.Keeps gunzip filePath s) (hstep : s.step filePath e = some s') :
    Recorded gunzip filePath initial s' := by
  cases e with
  | construct o => exact h.constructs hkeeps hstep
  | write sink text => exact h.writes hstep

/-- **Nothing a live sink writes is lost, and nothing else is kept**: over any number of sinks in
any order of constructions and writes, with every rotation keeping the log, the archives, all of
them different, and the log behind them read as the log at first and then the live writes. -/
theorem history_of_reaches {files : Files}
    (hrun : Reaches (Rotation.step filePath) (fun s e => e.Keeps gunzip filePath s)
      (Rotation.init files) s) :
    s.history gunzip filePath = files.log filePath ++ kept s.trace ∧ s.archives.Nodup
      ∧ ∀ path ∈ s.archives, path ≠ filePath ∧ path ∈ s.files := by
  have hinit : Recorded gunzip filePath (files.log filePath) (Rotation.init files) :=
    ⟨rfl, by simp [Rotation.init, live], by simp [Rotation.init], .nil,
      (List.append_nil _).symm⟩
  have h : Recorded gunzip filePath (files.log filePath) s :=
    hrun.invariant hinit fun h hkeeps hstep => h.step hkeeps hstep
  exact ⟨h.history, h.nodup, h.archives⟩

end History

/-! ## A rotation without a failure -/

/-- Every call succeeds. -/
def flawless : Compress.Outcomes :=
  ⟨true, true, fun _ => .upTo Compress.kBufSize, fun _ => true, true⟩

theorem compress_flawless (src : List Byte) :
    Compress.compress flawless src true = ⟨true, true, some src⟩ := by
  have hreads : Compress.ReadsAll flawless.fread src.length := fun i _ herror => by cases herror
  rw [Compress.compress, if_neg (by decide), if_neg (by decide)]
  cases hcopy : Compress.copy flawless.fread flawless.gzwrite src [] with
  | none =>
    obtain ⟨i, -, hwrite, -⟩ := Compress.copy_eq_none_iff.mp hcopy
    cases hwrite
  | some copied =>
    have hall := (Compress.copied_all_iff hcopy).mpr hreads
    rw [List.nil_append] at hall
    rw [hall]
    rfl

/-- The opening of a sink at which nothing fails, over a log that holds `log`. -/
def Opening.flawless (timestamp : CString) (log : List Byte) : Opening :=
  ⟨timestamp, Archive.flawless, log, true, true⟩

/-- **A rotation without a failure** is carried out while fewer files exist than an `int` can
count. -/
theorem exists_constructs_flawless {filePath : CString} {s : Rotation} (timestamp : CString)
    (hmem : filePath ∈ s.files) (hcard : s.files.keys.length < 2 ^ 31) :
    (Opening.flawless timestamp (s.files.log filePath)).Keeps some filePath s.files
      ∧ ∃ s', s.constructs filePath (.flawless timestamp (s.files.log filePath)) = some s'
        ∧ s'.trace = .constructed true true :: s.trace
        ∧ s'.sinks = s.sinks.map Handle.unlink ++ [.log]
        ∧ s'.files.log filePath = [] ∧ filePath ∈ s'.files
        ∧ s'.files.keys.length ≤ s.files.keys.length + 1 := by
  have hremoves (log : List Byte) :
      removesLog filePath s.files (.flawless timestamp log) = true := by
    rw [removesLog, decide_eq_true hmem, Bool.true_and]
    exact congrArg Compress.Result.removed (compress_flawless _)
  refine ⟨fun _ => ⟨fun _ => ?_, ?_⟩, ?_⟩
  · exact congrArg Compress.Result.dest (compress_flawless _)
  · exact (congrArg Compress.Result.dest (compress_flawless _)).symm
  · obtain ⟨files', hfiles'⟩ := exists_construct filePath
      (Opening.flawless timestamp (s.files.log filePath)).construction hcard
    obtain ⟨-, -, -, -, -, hlog⟩ := construct_of_removes hfiles' (hremoves _)
    have hthere : filePath ∈ files' := by
      obtain ⟨rotated, -, rfl⟩ := Option.map_eq_some_iff.mp hfiles'
      exact (AList.mem_insert _).mpr (.inl rfl)
    have hfiles : files'.createFile filePath = files' := if_pos hthere
    refine ⟨⟨files', s.sinks.map Handle.unlink ++ [.log],
      s.archives ++ (archivePath s.files filePath timestamp).toList,
      .constructed true true :: s.trace⟩, ?_, rfl, rfl, hlog, hthere,
      length_keys_of_construct hfiles'⟩
    rw [Rotation.constructs, hfiles', Option.map_some]
    dsimp only
    rw [hremoves]
    exact congrArg (fun files => some (Rotation.mk files _ _ _)) hfiles

/-- A sink is constructed over an earlier log of one byte, and writes; another one is constructed
over it, and both write. -/
theorem exists_reaches_rotated_twice (filePath timestamp : CString) : ∃ s,
    Reaches (Rotation.step filePath) (fun s e => e.Keeps some filePath s)
        (Rotation.init (AList.singleton filePath [0x61])) s
      ∧ s.trace = [.wrote 1 [0x64], .wrote 0 [0x63], .constructed true true, .wrote 0 [0x62],
        .constructed true true] := by
  have hmem : filePath ∈ (AList.singleton filePath [0x61] : Files) :=
    AList.mem_keys.mpr List.mem_cons_self
  obtain ⟨hkeeps₁, s₁, hs₁, htrace₁, hsinks₁, hlog₁, hmem₁, hcard₁⟩ :=
    exists_constructs_flawless (s := Rotation.init (AList.singleton filePath [0x61])) timestamp
      hmem (by rw [Rotation.init, AList.keys_singleton, List.length_singleton]; norm_num)
  have hs₂ : s₁.writes filePath 0 [0x62] = some (s₁.logged filePath 0 [0x62]) :=
    Rotation.writes_of_log (hsinks₁ ▸ rfl) _
  have hcard₂ : (s₁.logged filePath 0 [0x62]).files.keys.length < 2 ^ 31 := by
    have hkeys : (s₁.logged filePath 0 [0x62]).files.keys.length = s₁.files.keys.length := by
      change (AList.insert _ _ _).keys.length = _
      rw [AList.keys_insert, List.length_cons,
        List.length_erase_add_one (AList.mem_keys.mp hmem₁)]
    rw [Rotation.init, AList.keys_singleton, List.length_singleton] at hcard₁
    omega
  obtain ⟨hkeeps₃, s₃, hs₃, htrace₃, hsinks₃, -⟩ :=
    exists_constructs_flawless (s := s₁.logged filePath 0 [0x62]) timestamp
      ((AList.mem_insert _).mpr (.inl rfl)) hcard₂
  have hsinks : s₃.sinks = [.removed, .log] := by
    rw [hsinks₃, show (s₁.logged filePath 0 [0x62]).sinks = [.log] from hsinks₁]
    rfl
  have hs₄ : s₃.writes filePath 0 [0x63] = some (s₃.lost 0 [0x63]) :=
    Rotation.writes_of_removed (hsinks ▸ rfl) _
  have hs₅ : (s₃.lost 0 [0x63]).writes filePath 1 [0x64]
      = some ((s₃.lost 0 [0x63]).logged filePath 1 [0x64]) :=
    Rotation.writes_of_log (s := s₃.lost 0 [0x63]) (congrArg (·[1]?) hsinks) _
  have hrun : Reaches (Rotation.step filePath) (fun s e => e.Keeps some filePath s)
      (Rotation.init (AList.singleton filePath [0x61]))
      ((s₃.lost 0 [0x63]).logged filePath 1 [0x64]) :=
    ((((Reaches.refl.tail (a := .construct _) hkeeps₁ hs₁).tail (a := .write 0 [0x62]) trivial
      hs₂).tail (a := .construct _) hkeeps₃ hs₃).tail (a := .write 0 [0x63]) trivial
      hs₄).tail (a := .write 1 [0x64]) trivial hs₅
  refine ⟨_, hrun, ?_⟩
  change _ :: _ :: s₃.trace = _
  rw [htrace₃]
  change _ :: _ :: _ :: _ :: s₁.trace = _
  rw [htrace₁]
  rfl

/-- What the first sink writes when the second one has taken its log away is in no file. -/
theorem history_of_reaches_three : ∃ s : Rotation,
    Reaches (Rotation.step ⟨[0x6c], by decide⟩)
        (fun s e => e.Keeps some ⟨[0x6c], by decide⟩ s)
        (Rotation.init (AList.singleton ⟨[0x6c], by decide⟩ [0x61])) s
      ∧ s.history some ⟨[0x6c], by decide⟩ = [0x61, 0x62, 0x64] := by
  obtain ⟨s, hrun, htrace⟩ :=
    exists_reaches_rotated_twice ⟨[0x6c], by decide⟩ ⟨[0x30], by decide⟩
  refine ⟨s, hrun, ?_⟩
  rw [(history_of_reaches hrun).1, htrace]
  rfl

end Archive

end Femtolog
