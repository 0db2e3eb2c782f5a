import Femtolog.Foundations.Encoding
import Femtolog.Queue.Basic

/-!
# Core/FileIo — writing and reading whole files

`write` and `read` transfer as many of the bytes asked for as they like, and `write_file` and
`read_file` go on with the rest.  Whatever the counts, what has been transferred is a prefix of what
is to be: `write_file` reports success if and only if it is all of it, and `read_file` returns the
whole file unless a call returns nothing (`wholeFiles`).
-/

namespace Femtolog

/-! ## The calls -/

/-- **How the calls of `read` or `write` on a descriptor turn out**: what the `i`-th call returns
when `n` bytes are asked for, at most `n`. -/
structure Transfers where
  bytes : ℕ → ℕ → ℤ
  bytes_le : ∀ i n, bytes i n ≤ n

/-! ## The functions -/

/-- The loop of `write_file`: what is in the file, and the value returned. -/
def writeLoop (write : Transfers) (data file : List Byte) (totalWritten i : ℕ) : List Byte × ℤ :=
  if totalWritten < data.length then
    let bytes := write.bytes i (data.length - totalWritten)
    if bytes ≤ 0 then (file, -1)
    else
      writeLoop write data (file ++ slice data totalWritten bytes.toNat)
        (totalWritten + bytes.toNat) (i + 1)
  else (file, 0)
termination_by data.length - totalWritten

/-- `write_file`, with the descriptor `open` returns and what is in the file before it is
truncated. -/
def writeFile (fd : ℤ) (write : Transfers) (file content : List Byte) : List Byte × ℤ :=
  if fd < 0 then (file, -1) else writeLoop write content [] 0 0

/-- The loop of `read_file`. -/
def readLoop (read : Transfers) (file contents : List Byte) (totalRead i : ℕ) :
    List Byte × ℕ :=
  if totalRead < file.length then
    let bytes := read.bytes i (file.length - totalRead)
    if bytes ≤ 0 then (contents, totalRead)
    else
      readLoop read file (splice contents totalRead (slice file totalRead bytes.toNat))
        (totalRead + bytes.toNat) (i + 1)
  else (contents, totalRead)
termination_by file.length - totalRead

/-- `read_file`, with the descriptor `open` returns and what `fstat` does.  The size of a regular
file is the number of bytes in it. -/
def readFile (fd fstat : ℤ) (read : Transfers) (file : List Byte) : List Byte :=
  if fd < 0 then []
  else if fstat ≠ 0 then []
  else if 0 < file.length then
    let read := readLoop read file (List.replicate file.length 0) 0 0
    read.1.take read.2
  else []

/-! ## What is transferred -/

section Loops

variable {write read : Transfers} {data file contents : List Byte} {totalWritten totalRead i : ℕ}

/-- A count that is returned lies in what is left. -/
theorem Transfers.add_bytes_le {calls : Transfers} {total size : ℕ} (h : total < size) :
    total + (calls.bytes i (size - total)).toNat ≤ size := by
  have := calls.bytes_le i (size - total)
  omega

/-- A piece behind what has been transferred makes it longer. -/
theorem take_append_slice (data : List Byte) (total n : ℕ) :
    data.take total ++ slice data total n = data.take (total + n) := List.take_add.symm

/-- **What has been written is a prefix**, and all of it exactly on success. -/
theorem writeLoop_spec (h : totalWritten ≤ data.length) (hfile : file = data.take totalWritten) :
    (writeLoop write data file totalWritten i).1 <+: data
      ∧ ((writeLoop write data file totalWritten i).2 = 0
        ↔ (writeLoop write data file totalWritten i).1 = data) := by
  fun_induction writeLoop write data file totalWritten i with
  | case1 file totalWritten i hmore bytes hbytes =>
    refine ⟨hfile ▸ List.take_prefix _ _, iff_of_false (by simp) fun hall => ?_⟩
    have hlen := congrArg List.length (hfile.symm.trans hall)
    rw [List.length_take] at hlen
    omega
  | case2 file totalWritten i hmore bytes hbytes ih =>
    rw [hfile, take_append_slice] at ih
    rw [hfile, take_append_slice]
    exact ih (Transfers.add_bytes_le hmore) rfl
  | case3 file totalWritten i hdone =>
    rw [List.take_of_length_le (Nat.le_of_not_lt hdone)] at hfile
    exact ⟨hfile ▸ List.prefix_rfl, iff_of_true rfl hfile⟩

/-- **What has been read is in its place**, and it is all unless a call returns nothing. -/
theorem readLoop_spec (hread : ∀ i n, 0 < n → 0 < read.bytes i n) (h : totalRead ≤ file.length)
    (hlen : contents.length = file.length)
    (hcontents : contents.take totalRead = file.take totalRead) :
    readLoop read file contents totalRead i = (file, file.length) := by
  fun_induction readLoop read file contents totalRead i with
  | case1 contents totalRead i hmore bytes hbytes =>
    exact absurd (hread i _ (Nat.sub_pos_of_lt hmore)) (not_lt.mpr hbytes)
  | case2 contents totalRead i hmore bytes hbytes ih =>
    have hle := @Transfers.add_bytes_le i read _ _ hmore
    have hslice : (slice file totalRead bytes.toNat).length = bytes.toNat := length_slice hle
    refine ih hle ?_ ?_
    · rw [length_splice (by rw [hslice, hlen]; exact hle), hlen]
    · rw [← take_append_slice file, ← hcontents, splice]
      refine List.take_left' ?_
      rw [List.length_append, hslice, List.length_take, hlen, Nat.min_eq_left h]
  | case3 contents totalRead i hdone =>
    have htotal : totalRead = file.length := Nat.le_antisymm h (Nat.le_of_not_lt hdone)
    rw [htotal, List.take_length, ← hlen, List.take_length] at hcontents
    rw [hcontents, htotal]

end Loops

/-- **Files are written and read whole**, however the bytes are split up: success means that all of
the content is in the file, failure that a proper prefix is; and reads that return something give
the whole file. -/
theorem wholeFiles (content : List Byte) (calls : Transfers) :
    (∀ fd file, 0 ≤ fd →
      ((writeFile fd calls file content).2 = 0 ↔ (writeFile fd calls file content).1 = content)
      ∧ ((writeFile fd calls file content).2 ≠ 0 →
        (writeFile fd calls file content).1 <+: content
          ∧ (writeFile fd calls file content).1 ≠ content))
    ∧ ∀ fd, 0 ≤ fd → (∀ i n, 0 < n → 0 < calls.bytes i n) →
      readFile fd 0 calls content = content := by
  refine ⟨fun fd file hfd => ?_, fun fd hfd hread => ?_⟩
  · rw [writeFile, if_neg (not_lt.mpr hfd)]
    obtain ⟨hinit, hresult⟩ := @writeLoop_spec calls content [] 0 0 (Nat.zero_le _) rfl
    exact ⟨hresult, fun hfail => ⟨hinit, fun hall => hfail (hresult.mpr hall)⟩⟩
  · rw [readFile, if_neg (not_lt.mpr hfd), if_neg (not_not.mpr rfl)]
    split_ifs with hsize
    · rw [readLoop_spec hread (Nat.zero_le _) List.length_replicate rfl]
      exact List.take_length
    · exact (List.length_eq_zero_iff.mp (Nat.eq_zero_of_not_pos hsize)).symm

/-- Two bytes a call, as long as there are as many. -/
def twoBytes : Transfers := ⟨fun _ n => min 2 n, fun _ _ => min_le_right _ _⟩

/-- Thirteen bytes in seven calls. -/
theorem wholeFiles_twoBytes :
    ((writeFile 3 twoBytes [] (ascii "Hello, World!")).2 = 0
      ↔ (writeFile 3 twoBytes [] (ascii "Hello, World!")).1 = ascii "Hello, World!")
    ∧ readFile 3 0 twoBytes (ascii "Hello, World!") = ascii "Hello, World!" := by
  obtain ⟨hwrite, hread⟩ := wholeFiles (ascii "Hello, World!") twoBytes
  refine ⟨(hwrite 3 [] (by decide)).1, hread 3 (by decide) fun i n hn => ?_⟩
  exact lt_min (by decide) (Int.natCast_pos.mpr hn)

end Femtolog
