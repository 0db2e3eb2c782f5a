import Mathlib.Algebra.BigOperators.Group.Finset.Basic
import Femtolog.Queue.Basic

/-!
# Core/FileUtil — copying a log into its archive

`compress` reads a file chunk by chunk, hands every chunk to zlib, and may remove the file at the
end.  Each call to the libraries may fail: its outcome is drawn from a stream, one for each call.

`fread` returns nothing both at the end of the file and when it fails, and what zlib has buffered
reaches the archive when `gzclose` succeeds.  `compress` asks about neither: the log survives
exactly if no read fails before its end and the archive can be closed, or if something it does ask
about goes wrong (`compress_keeps_log_iff`).
-/

namespace Femtolog

namespace Compress

/-! ## The calls -/

/-- `kBufSize`. -/
def kBufSize : ℕ := 8192

/-- How a call of `fread` turns out: it reads at most `n` bytes, or fails. -/
inductive Fread
  | upTo (n : ℕ)
  | error
  deriving DecidableEq

/-- How many bytes the call reads where there are enough of them: at least one, at most a buffer. -/
def Fread.size : Fread → ℕ
  | upTo n => min (max n 1) kBufSize
  | error => 0

/-- How the calls of one `compress` turn out. -/
structure Outcomes where
  fopen : Bool
  gzopen : Bool
  fread : ℕ → Fread
  gzwrite : ℕ → Bool
  gzclose : Bool

/-- What `compress` leaves: the value returned, whether the source has been removed, and what the
destination decompresses to if it is a complete stream. -/
structure Result where
  returned : Bool
  removed : Bool
  dest : Option (List Byte)

/-! ## The copy loop -/

theorem length_drop_lt {rest : List Byte} {r : Fread} (h : rest.take r.size ≠ []) :
    (rest.drop r.size).length < rest.length := by
  have hne : rest ≠ [] := by rintro rfl; simp at h
  have hsize : r.size ≠ 0 := by intro h0; simp [h0] at h
  have hpos := List.length_pos_iff.mpr hne
  rw [List.length_drop]
  omega

/-- The loop of `compress` on what is `rest` of the source, `written` having been passed to
`gzwrite`: all that is passed until `fread` returns nothing, undefined where `gzwrite` fails. -/
def copy (fread : ℕ → Fread) (gzwrite : ℕ → Bool) (rest written : List Byte) :
    Option (List Byte) :=
  let read := rest.take (fread 0).size
  if _hread : read = [] then some written
  else if gzwrite 0 = false then none
  else
    copy (fun i => fread (i + 1)) (fun i => gzwrite (i + 1)) (rest.drop (fread 0).size)
      (written ++ read)
termination_by rest.length
decreasing_by exact length_drop_lt _hread

/-- `compress`. -/
def compress (o : Outcomes) (src : List Byte) (removeAfterCompress : Bool) : Result :=
  if o.fopen = false then ⟨false, false, none⟩
  else if o.gzopen = false then ⟨false, false, none⟩
  else
    match copy o.fread o.gzwrite src [] with
    | none => ⟨false, false, none⟩
    | some written => ⟨true, removeAfterCompress, if o.gzclose then some written else none⟩

/-! ## What the loop copies -/

variable {fread : ℕ → Fread} {gzwrite : ℕ → Bool} {rest written : List Byte}

/-- What the calls before the `i`-th read of a long file. -/
def sent (fread : ℕ → Fread) (i : ℕ) : ℕ := ∑ j ∈ Finset.range i, (fread j).size

/-- No read fails before the end of a file of `n` bytes. -/
def ReadsAll (fread : ℕ → Fread) (n : ℕ) : Prop := ∀ i, sent fread i < n → fread i ≠ .error

/-- A write fails before the end of a file of `n` bytes, and no read before it. -/
def WriteFails (fread : ℕ → Fread) (gzwrite : ℕ → Bool) (n : ℕ) : Prop :=
  ∃ i, sent fread i < n ∧ gzwrite i = false ∧ ∀ j ≤ i, fread j ≠ .error

@[simp] theorem sent_zero (fread : ℕ → Fread) : sent fread 0 = 0 := Finset.sum_range_zero _

theorem sent_succ (fread : ℕ → Fread) (i : ℕ) :
    sent fread (i + 1) = sent (fun i => fread (i + 1)) i + (fread 0).size :=
  Finset.sum_range_succ' _ _

theorem size_pos {r : Fread} (h : r ≠ .error) : 0 < r.size := by
  cases r with
  | upTo n =>
    simp only [Fread.size, kBufSize]
    omega
  | error => exact absurd rfl h

/-- The first call of `fread` returns nothing at the end of the file, and when it fails. -/
theorem take_eq_nil_iff : rest.take (fread 0).size = [] ↔ rest = [] ∨ fread 0 = .error := by
  rw [List.take_eq_nil_iff]
  constructor
  · rintro (hsize | hrest)
    · right
      by_contra herror
      exact absurd hsize (size_pos herror).ne'
    · exact .inl hrest
  · rintro (hrest | herror)
    · exact .inr hrest
    · exact .inl (by rw [herror]; rfl)

theorem readsAll_succ {n : ℕ} (h0 : fread 0 ≠ .error) :
    ReadsAll fread n ↔ ReadsAll (fun i => fread (i + 1)) (n - (fread 0).size) := by
  constructor
  · intro h i hi
    exact h (i + 1) (by rw [sent_succ]; omega)
  · rintro h (_ | i) hi
    · exact h0
    · exact h i (by rw [sent_succ] at hi; omega)

theorem writeFails_succ {n : ℕ} (h0 : fread 0 ≠ .error) (hn : 0 < n) :
    WriteFails fread gzwrite n ↔ gzwrite 0 = false
      ∨ WriteFails (fun i => fread (i + 1)) (fun i => gzwrite (i + 1)) (n - (fread 0).size) := by
  constructor
  · rintro ⟨_ | i, hi, hwrite, hread⟩
    · exact .inl hwrite
    · refine .inr ⟨i, ?_, hwrite, fun j hj => hread (j + 1) (by omega)⟩
      rw [sent_succ] at hi
      omega
  · rintro (hwrite | ⟨i, hi, hwrite, hread⟩)
    · refine ⟨0, by rwa [sent_zero], hwrite, fun j hj => ?_⟩
      rwa [Nat.le_zero.mp hj]
    · refine ⟨i + 1, by rw [sent_succ]; omega, hwrite, ?_⟩
      rintro (_ | j) hj
      · exact h0
      · exact hread j (by omega)

/-- **The loop gives up** exactly if a write fails and no read before it. -/
theorem copy_eq_none_iff :
    copy fread gzwrite rest written = none ↔ WriteFails fread gzwrite rest.length := by
  fun_induction copy fread gzwrite rest written with
  | case1 fread gzwrite rest written read hread =>
    refine ⟨fun h => absurd h (Option.some_ne_none _), ?_⟩
    rintro ⟨i, hi, -, hreads⟩
    rcases take_eq_nil_iff.mp hread with rfl | herror
    · exact absurd hi (Nat.not_lt_zero _)
    · exact absurd herror (hreads 0 (Nat.zero_le i))
  | case2 fread gzwrite rest written read hread hwrite =>
    obtain ⟨hrest, h0⟩ := not_or.mp (mt take_eq_nil_iff.mpr hread)
    exact iff_of_true rfl
      ((writeFails_succ h0 (List.length_pos_iff.mpr hrest)).mpr (.inl hwrite))
  | case3 fread gzwrite rest written read hread hwrite ih =>
    obtain ⟨hrest, h0⟩ := not_or.mp (mt take_eq_nil_iff.mpr hread)
    rw [ih, List.length_drop, writeFails_succ h0 (List.length_pos_iff.mpr hrest)]
    exact (or_iff_right hwrite).symm

/-- **A loop that comes to its end has copied everything** exactly if no read has failed. -/
theorem copied_all_iff {copied : List Byte} (h : copy fread gzwrite rest written = some copied) :
    copied = written ++ rest ↔ ReadsAll fread rest.length := by
  fun_induction copy fread gzwrite rest written with
  | case1 fread gzwrite rest written read hread =>
    obtain rfl := Option.some.inj h
    rw [List.self_eq_append_right]
    constructor
    · rintro rfl i hi
      exact absurd hi (Nat.not_lt_zero _)
    · intro hall
      by_contra hrest
      have herror := (take_eq_nil_iff.mp hread).resolve_left hrest
      exact hall 0 (by rw [sent_zero]; exact List.length_pos_iff.mpr hrest) herror
  | case2 => cases h
  | case3 fread gzwrite rest written read hread hwrite ih =>
    obtain ⟨-, h0⟩ := not_or.mp (mt take_eq_nil_iff.mpr hread)
    rw [readsAll_succ h0, ← List.length_drop, ← ih h, List.append_assoc,
      List.take_append_drop]

/-! ## Rotation -/

/-- **The log is kept**: if the source is removed, the destination decompresses to all of it. -/
def KeepsLog (o : Outcomes) (src : List Byte) (removeAfterCompress : Bool) : Prop :=
  (compress o src removeAfterCompress).removed = true →
    (compress o src removeAfterCompress).dest = some src

/-- **When rotation keeps the log**: the source is not to be removed, a failure is noticed, or there
is none that goes unnoticed. -/
theorem compress_keeps_log_iff (o : Outcomes) (src : List Byte) (removeAfterCompress : Bool) :
    KeepsLog o src removeAfterCompress
      ↔ removeAfterCompress = false ∨ o.fopen = false ∨ o.gzopen = false
        ∨ WriteFails o.fread o.gzwrite src.length
        ∨ ReadsAll o.fread src.length ∧ o.gzclose = true := by
  rw [KeepsLog, compress]
  cases hopen : o.fopen
  · simp
  cases hgzopen : o.gzopen
  · simp
  cases hcopy : copy o.fread o.gzwrite src [] with
  | none =>
    have hfails := copy_eq_none_iff.mp hcopy
    simp [hfails]
  | some copied =>
    have hfails : ¬WriteFails o.fread o.gzwrite src.length := by
      intro hfails
      rw [copy_eq_none_iff.mpr hfails] at hcopy
      cases hcopy
    have hall := copied_all_iff hcopy
    rw [List.nil_append] at hall
    cases hremove : removeAfterCompress
    · simp
    · cases hclose : o.gzclose
      · simp [hfails]
      · simp [hfails, hall]

/-- The disk fills up when the archive is closed. -/
theorem compress_loses_log : ¬∀ (o : Outcomes) (src : List Byte) (removeAfterCompress : Bool),
    KeepsLog o src removeAfterCompress := by
  intro hall
  have hkeeps := hall ⟨true, true, fun _ => .upTo 8192, fun _ => true, false⟩ [0x61] true
  have hcopy : copy (fun _ => .upTo 8192) (fun _ => true) [0x61] [] = some [0x61] := by
    rw [copy, dif_neg (by decide), if_neg (by decide), copy]
    rfl
  rw [KeepsLog, compress] at hkeeps
  simp only [hcopy] at hkeeps
  exact absurd (hkeeps rfl) (by simp)

end Compress

end Femtolog
