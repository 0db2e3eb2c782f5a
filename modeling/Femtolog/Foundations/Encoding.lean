import Mathlib.Data.List.Forall2
import Mathlib.Data.List.Nodup
import Mathlib.Tactic.Ring
import Femtolog.Foundations.Memory

/-!
# Foundations/Encoding — words as bytes, and records written one after the other

A word lies in memory as its bytes, least significant first (`bytesLE`, read back by `ofBytesLE`),
a text as one byte for each character (`ascii`).

A `Cursor` is a position in a block of fixed size; `put` copies a record to it and moves it on, and
is undefined where the record does not fit.  Records put one after the other are one record
(`put_bind_put`).  A reader takes a record off a block at an offset and returns its value with the
offset after it; `readAll` runs one reader after the other.  A reader that `Reads` what a writer
wrote, wherever it lies, reads back the concatenation of any number of records (`readAll_eq`).
-/

namespace Femtolog

/-! ## Words -/

/-- The `k` low bytes of `n`, least significant first. -/
def bytesLE : ℕ → ℕ → List UInt8
  | 0, _ => []
  | k + 1, n => UInt8.ofNat (n % 256) :: bytesLE k (n / 256)

/-- The number with these bytes, least significant first. -/
def ofBytesLE : List UInt8 → ℕ
  | [] => 0
  | b :: bs => b.toNat + 256 * ofBytesLE bs

@[simp] theorem length_bytesLE (k n : ℕ) : (bytesLE k n).length = k := by
  induction k generalizing n with
  | zero => rfl
  | succ k ih => rw [bytesLE, List.length_cons, ih]

/-- **The bytes of a number give it back**, modulo what they can hold. -/
theorem ofBytesLE_bytesLE (k n : ℕ) : ofBytesLE (bytesLE k n) = n % 256 ^ k := by
  induction k generalizing n with
  | zero => rw [bytesLE, ofBytesLE, pow_zero, Nat.mod_one]
  | succ k ih =>
    have hlow : (UInt8.ofNat (n % 256)).toNat = n % 256 := by
      rw [UInt8.toNat_ofNat']
      omega
    rw [bytesLE, ofBytesLE, hlow, ih, pow_succ', Nat.mod_mul]

theorem ofBytesLE_bytesLE_of_lt {k n : ℕ} (h : n < 256 ^ k) : ofBytesLE (bytesLE k n) = n := by
  rw [ofBytesLE_bytesLE, Nat.mod_eq_of_lt h]

/-- **A number gives its bytes back.** -/
theorem bytesLE_ofBytesLE (bs : List UInt8) : bytesLE bs.length (ofBytesLE bs) = bs := by
  induction bs with
  | nil => rfl
  | cons b bs ih =>
    have hb : b.toNat < 256 := b.toNat_lt
    have hlow : (b.toNat + 256 * ofBytesLE bs) % 256 = b.toNat := by omega
    have hhigh : (b.toNat + 256 * ofBytesLE bs) / 256 = ofBytesLE bs := by omega
    rw [List.length_cons, ofBytesLE, bytesLE, hlow, hhigh, ih, UInt8.ofNat_toNat]

theorem ofBytesLE_lt (bs : List UInt8) : ofBytesLE bs < 256 ^ bs.length := by
  induction bs with
  | nil => exact Nat.one_pos
  | cons b bs ih =>
    have hb : b.toNat < 256 := b.toNat_lt
    rw [ofBytesLE, List.length_cons, pow_succ]
    omega

/-- A word is read back from its bytes. -/
theorem ofNat_ofBytesLE {w k : ℕ} (x : BitVec w) (h : 2 ^ w ≤ 256 ^ k) :
    BitVec.ofNat w (ofBytesLE (bytesLE k x.toNat)) = x := by
  rw [ofBytesLE_bytesLE_of_lt (lt_of_lt_of_le x.isLt h), BitVec.ofNat_toNat, BitVec.setWidth_eq]

/-- The eight bytes of a 64-bit word. -/
def wordBytes (x : BitVec 64) : List UInt8 := bytesLE 8 x.toNat

/-- The 64-bit word with these bytes. -/
def ofWordBytes (bs : List UInt8) : BitVec 64 := BitVec.ofNat 64 (ofBytesLE bs)

@[simp] theorem length_wordBytes (x : BitVec 64) : (wordBytes x).length = 8 := length_bytesLE 8 _

@[simp] theorem ofWordBytes_wordBytes (x : BitVec 64) : ofWordBytes (wordBytes x) = x := by
  exact ofNat_ofBytesLE x (by norm_num)

/-- Eight bytes are read back from their word. -/
theorem wordBytes_ofWordBytes {bs : List UInt8} (h : bs.length = 8) :
    wordBytes (ofWordBytes bs) = bs := by
  have hlt : ofBytesLE bs < 2 ^ 64 := by
    have := ofBytesLE_lt bs
    rw [h] at this
    exact this
  rw [wordBytes, ofWordBytes, BitVec.toNat_ofNat, Nat.mod_eq_of_lt hlt, ← h, bytesLE_ofBytesLE]

/-- The bytes of a text of 7-bit characters. -/
def ascii (text : String) : List UInt8 := text.toList.map fun c => UInt8.ofNat c.toNat

/-! ## Lists of results -/

section Results

variable {γ δ : Type*}

/-- A list of partial results is defined when every one of them is. -/
theorem mapM_eq_some_iff {f : γ → Option δ} {xs : List γ} {ys : List δ} :
    xs.mapM f = some ys ↔ List.Forall₂ (fun x y => f x = some y) xs ys := by
  induction xs generalizing ys with
  | nil => exact ⟨fun h => Option.some.inj h ▸ .nil, fun h => by cases h; rfl⟩
  | cons x xs ih =>
    have hcons : (x :: xs).mapM f
        = (f x).bind fun y => (xs.mapM f).bind fun ys => some (y :: ys) := List.mapM_cons
    rw [hcons]
    constructor
    · intro h
      obtain ⟨y, hy, hrest⟩ := Option.bind_eq_some_iff.mp h
      obtain ⟨ys', hys, hcat⟩ := Option.bind_eq_some_iff.mp hrest
      rw [← Option.some.inj hcat]
      exact .cons hy (ih.mp hys)
    · rintro (_ | ⟨hy, hys⟩)
      rw [hy, Option.bind_some, ih.mpr hys, Option.bind_some]

theorem mapM_congr {f g : γ → Option δ} {xs : List γ} (h : ∀ x ∈ xs, f x = g x) :
    xs.mapM f = xs.mapM g := by
  induction xs with
  | nil => rfl
  | cons x xs ih =>
    rw [List.mapM_cons, List.mapM_cons, h x List.mem_cons_self,
      ih fun y hy => h y (List.mem_cons_of_mem x hy)]

/-- Two functions that give one list of results give the same result everywhere on it. -/
theorem eq_of_mapM_eq {f g : γ → Option δ} {xs : List γ} {ys : List δ}
    (hf : xs.mapM f = some ys) (hg : xs.mapM g = some ys) : ∀ x ∈ xs, f x = g x := by
  have hf' := mapM_eq_some_iff.mp hf
  have hg' := mapM_eq_some_iff.mp hg
  clear hf hg
  induction hf' with
  | nil => exact fun x hx => absurd hx List.not_mem_nil
  | cons hfx _ ih =>
    obtain _ | ⟨hgx, hgs⟩ := hg'
    intro z hz
    rcases List.mem_cons.mp hz with rfl | hz
    · rw [hfx, hgx]
    · exact ih hgs z hz

/-- Looking up a result is the result of what is looked up. -/
theorem getElem?_of_mapM {f : γ → Option δ} {xs : List γ} {ys : List δ}
    (h : xs.mapM f = some ys) (i : ℕ) : ys[i]? = (xs[i]?).bind f := by
  have hall := mapM_eq_some_iff.mp h
  clear h
  induction hall generalizing i with
  | nil => rfl
  | cons hxy _ ih =>
    cases i with
    | zero => exact hxy.symm
    | succ i => exact ih i

/-- Results that are all defined are the ones a filter keeps. -/
theorem filterMap_of_mapM {f : γ → Option δ} {xs : List γ} {ys : List δ}
    (h : xs.mapM f = some ys) : xs.filterMap f = ys := by
  have hall := mapM_eq_some_iff.mp h
  clear h
  induction hall with
  | nil => rfl
  | cons hxy _ ih => rw [List.filterMap_cons_some hxy, ih]

/-- Looking up the positions of a list one after the other gives the list. -/
theorem mapM_range {f : ℕ → Option δ} {ys : List δ} {n : ℕ} (hn : n = ys.length)
    (hf : ∀ i, i < n → f i = ys[i]?) : (List.range n).mapM f = some ys := by
  refine mapM_eq_some_iff.mpr (List.forall₂_iff_get.mpr ⟨by rw [List.length_range, hn], ?_⟩)
  intro i hi hi'
  rw [List.get_eq_getElem, List.getElem_range, hf i (hn ▸ hi'), List.getElem?_eq_getElem hi']
  rfl

/-- Two partial functions one after the other. -/
theorem mapM_bind {ι : Type*} {f : ι → Option γ} {g : γ → Option δ} {is : List ι} {xs : List γ}
    (h : is.mapM f = some xs) : (is.mapM fun i => (f i).bind g) = xs.mapM g := by
  have hall := mapM_eq_some_iff.mp h
  clear h
  induction hall with
  | nil => rfl
  | cons hix _ ih => rw [List.mapM_cons, List.mapM_cons, hix, Option.bind_some, ih]

/-- Positions inside a list can be looked up. -/
theorem exists_mapM {xs : List δ} {is : List ℕ} (h : ∀ i ∈ is, i < xs.length) :
    ∃ ys, (is.mapM fun i => xs[i]?) = some ys := by
  induction is with
  | nil => exact ⟨[], rfl⟩
  | cons i is ih =>
    obtain ⟨ys, hys⟩ := ih fun j hj => h j (List.mem_cons_of_mem i hj)
    have hi := List.getElem?_eq_getElem (h i List.mem_cons_self)
    exact ⟨_, mapM_eq_some_iff.mpr (.cons hi (mapM_eq_some_iff.mp hys))⟩

/-- **Looking up all positions in some order** gives the list in that order. -/
theorem perm_of_mapM {xs ys : List δ} {is : List ℕ} (hperm : is.Perm (List.range xs.length))
    (h : (is.mapM fun i => xs[i]?) = some ys) : ys.Perm xs := by
  have hrange : (List.range xs.length).filterMap (fun i => xs[i]?) = xs :=
    filterMap_of_mapM (mapM_range rfl fun _ _ => rfl)
  have hfilter := hperm.filterMap fun i => xs[i]?
  rwa [filterMap_of_mapM h, hrange] at hfilter

end Results

/-! ## Writing -/

variable {α : Type*} {n : ℕ}

/-- A position in a block of `n` cells. -/
@[ext] structure Cursor (α : Type*) (n : ℕ) where
  cells : List α
  pos : ℕ
  length_cells : cells.length = n
  pos_le : pos ≤ n

namespace Cursor

/-- The start of a block. -/
def start (cells : List α) (h : cells.length = n) : Cursor α n := ⟨cells, 0, h, Nat.zero_le n⟩

/-- Copy `xs` to the cursor and move it on. -/
def put (c : Cursor α n) (xs : List α) : Option (Cursor α n) :=
  if h : c.pos + xs.length ≤ n then
    some ⟨splice c.cells c.pos xs, c.pos + xs.length,
      (length_splice (c.length_cells.symm ▸ h)).trans c.length_cells, h⟩
  else none

theorem put_eq_none {c : Cursor α n} {xs : List α} (h : n < c.pos + xs.length) :
    c.put xs = none := dif_neg (by omega)

@[simp] theorem put_nil (c : Cursor α n) : c.put [] = some c := by
  rw [put, dif_pos (by simpa using c.pos_le)]
  simp

/-- **Records put one after the other are one record.** -/
theorem put_bind_put (c : Cursor α n) (xs ys : List α) :
    (c.put xs).bind (fun c' => c'.put ys) = c.put (xs ++ ys) := by
  by_cases hx : c.pos + xs.length ≤ n
  · rw [put, dif_pos hx, Option.bind_some]
    by_cases hy : c.pos + xs.length + ys.length ≤ n
    · have hboth : c.pos + (xs ++ ys).length ≤ n := by
        rw [List.length_append]
        omega
      rw [put, put, dif_pos hy, dif_pos hboth]
      refine congrArg some (Cursor.ext ?_ ?_)
      · exact splice_splice (by rw [c.length_cells]; omega)
      · simp only [List.length_append]
        omega
    · rw [put_eq_none (by dsimp only; omega), put_eq_none (by rw [List.length_append]; omega)]
  · rw [put_eq_none (by omega), put_eq_none (by rw [List.length_append]; omega), Option.bind_none]

/-- What a put at the start of a block leaves. -/
theorem put_start {cells xs : List α} {h : cells.length = n} {c : Cursor α n}
    (hput : (start cells h).put xs = some c) : c.cells = xs ++ cells.drop xs.length := by
  rw [put] at hput
  split at hput
  · rw [← Option.some.inj hput]
    exact splice_zero cells xs
  · cases hput

/-- A put that succeeds fits. -/
theorem le_of_put {c c' : Cursor α n} {xs : List α} (h : c.put xs = some c') :
    c.pos + xs.length ≤ n := by
  by_contra hlt
  rw [put_eq_none (by omega)] at h
  cases h

/-- A put moves the cursor behind what it has copied. -/
theorem pos_of_put {c c' : Cursor α n} {xs : List α} (h : c.put xs = some c') :
    c'.pos = c.pos + xs.length := by
  rw [put, dif_pos (le_of_put h)] at h
  rw [← Option.some.inj h]

theorem exists_put (c : Cursor α n) (xs : List α) (h : c.pos + xs.length ≤ n) :
    ∃ c', c.put xs = some c' := ⟨_, dif_pos h⟩

end Cursor

/-- A loop that is undefined at an item is undefined on a list with that item. -/
theorem foldlM_eq_none_of_mem {σ ι : Type*} {f : σ → ι → Option σ} {i : ι} {is : List ι}
    (hi : i ∈ is) (h : ∀ s, f s i = none) (s : σ) : is.foldlM f s = none := by
  induction is generalizing s with
  | nil => cases hi
  | cons j is ih =>
    rw [List.foldlM_cons]
    rcases List.mem_cons.mp hi with rfl | hi
    · rw [h]
      rfl
    · cases f s j with
      | none => rfl
      | some s' => exact ih hi s'

/-- **A writer that puts a record for each item puts their concatenation** for a list of items. -/
theorem foldlM_put {ι : Type*} {write : Cursor α n → ι → Option (Cursor α n)}
    {record : ι → Option (List α)} (hwrite : ∀ c i, write c i = (record i).bind c.put)
    (is : List ι) (c : Cursor α n) :
    is.foldlM write c = (is.mapM record).bind fun rs => c.put rs.flatten := by
  induction is generalizing c with
  | nil => exact (Cursor.put_nil c).symm
  | cons i is ih =>
    have hcons : (i :: is).mapM record
        = (record i).bind fun r => (is.mapM record).bind fun rs => some (r :: rs) :=
      List.mapM_cons
    rw [hcons, List.foldlM_cons, hwrite]
    cases record i with
    | none => rfl
    | some r =>
      change (c.put r).bind (fun c' => is.foldlM write c') = _
      simp only [ih, Option.bind_some]
      cases is.mapM record with
      | none => simp
      | some rs => simp only [Option.bind_some, List.flatten_cons, Cursor.put_bind_put]

/-! ## Reading -/

/-- `n` cells of a block from `offset` on, if the block has them. -/
def window (data : List α) (offset n : ℕ) : Option (List α) :=
  if offset + n ≤ data.length then some (slice data offset n) else none

/-- A record is read where it lies. -/
theorem window_eq {before xs after : List α} {offset n : ℕ} (ho : offset = before.length)
    (hn : n = xs.length) : window (before ++ (xs ++ after)) offset n = some xs := by
  rw [window, if_pos (by simp only [List.length_append]; omega), slice_append_left ho hn]

/-- Two windows, one right after the other, are one window. -/
theorem window_append_iff {data xs ys : List α} {offset : ℕ} :
    window data offset (xs ++ ys).length = some (xs ++ ys)
      ↔ window data offset xs.length = some xs
        ∧ window data (offset + xs.length) ys.length = some ys := by
  by_cases h : offset + (xs.length + ys.length) ≤ data.length
  · have hxs : (slice data offset xs.length).length = xs.length := length_slice (by omega)
    rw [window, window, window, List.length_append, if_pos h, if_pos (by omega),
      if_pos (by omega), ← slice_append_slice, Option.some_inj, Option.some_inj, Option.some_inj]
    exact ⟨fun heq => List.append_inj heq hxs, fun heq => by rw [heq.1, heq.2]⟩
  · have hnone : ∀ {o : Option (List α)} {zs : List α}, o = none → o ≠ some zs := by
      rintro o zs rfl
      exact (Option.some_ne_none zs).symm
    refine iff_of_false (hnone (if_neg ?_)) fun heq => hnone (if_neg ?_) heq.2
    · rwa [List.length_append]
    · omega

/-- A window lies in the block. -/
theorem exists_of_window {data xs : List α} {offset n : ℕ} (h : window data offset n = some xs) :
    ∃ before after, data = before ++ (xs ++ after) ∧ before.length = offset := by
  rw [window] at h
  split_ifs at h with hle
  obtain rfl := Option.some.inj h
  refine ⟨data.take offset, data.drop (offset + n), ?_, ?_⟩
  · rw [slice, ← List.drop_drop, List.take_append_drop, List.take_append_drop]
  · rw [List.length_take]
    omega

/-- A window ends inside the block. -/
theorem le_of_window {data xs : List α} {offset n : ℕ} (h : window data offset n = some xs) :
    offset + n ≤ data.length := by
  rw [window] at h
  split_ifs at h with hle
  exact hle

/-- What is read of a block is read of every longer one. -/
theorem window_mono {data data' xs : List α} {offset n : ℕ} (hdata : data <+: data')
    (h : window data offset n = some xs) : window data' offset n = some xs := by
  obtain ⟨more, rfl⟩ := hdata
  have hle := le_of_window h
  rw [window, if_pos hle] at h
  rw [window, if_pos (hle.trans (List.length_append ▸ Nat.le_add_right _ _)),
    slice_append_of_le hle, h]

variable {κ β : Type*}

/-- `read k` reads the record `xs` as the value `b`, wherever it lies. -/
def Reads (read : κ → List α → ℕ → Option (β × ℕ)) (k : κ) (xs : List α) (b : β) : Prop :=
  ∀ before after : List α,
    read k (before ++ (xs ++ after)) before.length = some (b, before.length + xs.length)

/-- Read a record of each kind in turn: the values, each with the offset after its record. -/
def readAll (read : κ → List α → ℕ → Option (β × ℕ)) (data : List α) :
    List κ → ℕ → Option (List (β × ℕ))
  | [], _ => some []
  | k :: ks, offset =>
    (read k data offset).bind fun b => (readAll read data ks b.2).map fun bs => b :: bs

/-- There is one value for each kind. -/
theorem length_of_readAll {read : κ → List α → ℕ → Option (β × ℕ)} {data : List α} {ks : List κ}
    {offset : ℕ} {rs : List (β × ℕ)} (h : readAll read data ks offset = some rs) :
    rs.length = ks.length := by
  induction ks generalizing offset rs with
  | nil => rw [← Option.some.inj h, List.length_nil, List.length_nil]
  | cons k ks ih =>
    obtain ⟨b, -, hrest⟩ := Option.bind_eq_some_iff.mp h
    obtain ⟨bs, hbs, rfl⟩ := Option.map_eq_some_iff.mp hrest
    rw [List.length_cons, List.length_cons, ih hbs]

/-- The values of records that lie one after the other from `offset` on, each with the offset after
its record. -/
def laidOut : ℕ → List (List α × β) → List (β × ℕ)
  | _, [] => []
  | offset, (xs, b) :: records => (b, offset + xs.length) :: laidOut (offset + xs.length) records

@[simp] theorem map_fst_laidOut (offset : ℕ) (records : List (List α × β)) :
    (laidOut offset records).map Prod.fst = records.map Prod.snd := by
  induction records generalizing offset with
  | nil => rfl
  | cons r records ih => rw [laidOut, List.map_cons, List.map_cons, ih]

/-- The last record ends where the concatenation does. -/
theorem getLast?_laidOut (offset : ℕ) {records : List (List α × β)} (hne : records ≠ []) :
    (laidOut offset records).getLast?.map Prod.snd
      = some (offset + (records.map Prod.fst).flatten.length) := by
  induction records generalizing offset with
  | nil => exact absurd rfl hne
  | cons r records ih =>
    rw [laidOut, List.map_cons, List.flatten_cons, List.length_append, ← Nat.add_assoc]
    rcases eq_or_ne records [] with rfl | hne'
    · rfl
    · rw [← ih (offset + r.1.length) hne', List.getLast?_cons]
      cases h : (laidOut (offset + r.1.length) records).getLast? with
      | none =>
        have hlast := ih (offset + r.1.length) hne'
        rw [h] at hlast
        cases hlast
      | some b => rfl

/-- **Records read one after the other** — readers that each read their record wherever it lies
read the concatenation. -/
theorem readAll_eq {read : κ → List α → ℕ → Option (β × ℕ)} {ks : List κ}
    {records : List (List α × β)}
    (hread : List.Forall₂ (fun k r => Reads read k r.1 r.2) ks records) (before after : List α) :
    readAll read (before ++ ((records.map Prod.fst).flatten ++ after)) ks before.length
      = some (laidOut before.length records) := by
  induction hread generalizing before with
  | nil => rfl
  | @cons k r ks records hk _ ih =>
    have hhead := hk before ((records.map Prod.fst).flatten ++ after)
    have htail := ih (before ++ r.1)
    rw [List.append_assoc, List.length_append] at htail
    rw [readAll, List.map_cons, List.flatten_cons, List.append_assoc, hhead, Option.bind_some,
      htail]
    rfl

/-- `read k` gives the value `b` where the record `xs` lies, and nowhere else. -/
def ReadsExactly (read : κ → List α → ℕ → Option (β × ℕ)) (k : κ) (xs : List α) (b : β) : Prop :=
  ∀ (data : List α) (offset e : ℕ), read k data offset = some (b, e)
    ↔ window data offset xs.length = some xs ∧ e = offset + xs.length

/-- **Readers that each read their record exactly where it lies** give its values exactly where the
concatenation lies. -/
theorem map_fst_readAll_iff {read : κ → List α → ℕ → Option (β × ℕ)} {ks : List κ}
    {records : List (List α × β)}
    (hread : List.Forall₂ (fun k r => ReadsExactly read k r.1 r.2) ks records) {data : List α}
    {offset : ℕ} (hoffset : offset ≤ data.length) :
    (readAll read data ks offset).map (List.map Prod.fst) = some (records.map Prod.snd)
      ↔ window data offset (records.map Prod.fst).flatten.length
        = some (records.map Prod.fst).flatten := by
  induction hread generalizing offset with
  | nil => exact iff_of_true rfl (if_pos hoffset)
  | @cons k r ks records hk _ ih =>
    rw [List.map_cons, List.map_cons, List.flatten_cons, window_append_iff]
    constructor
    · intro h
      obtain ⟨bs, hbs, hvalues⟩ := Option.map_eq_some_iff.mp h
      obtain ⟨⟨b, e⟩, hread, hrest⟩ := Option.bind_eq_some_iff.mp hbs
      obtain ⟨bs', hbs', rfl⟩ := Option.map_eq_some_iff.mp hrest
      obtain ⟨rfl, htail⟩ := List.cons.inj hvalues
      obtain ⟨hwindow, rfl⟩ := (hk data offset e).mp hread
      refine ⟨hwindow, (ih (le_of_window hwindow)).mp ?_⟩
      rw [hbs']
      exact congrArg some htail
    · rintro ⟨hwindow, hrest⟩
      have hread := (hk data offset _).mpr ⟨hwindow, rfl⟩
      obtain ⟨bs, hbs, hvalues⟩ :=
        Option.map_eq_some_iff.mp ((ih (le_of_window hwindow)).mpr hrest)
      rw [readAll, hread, Option.bind_some, hbs]
      simp only [Option.map_some, List.map_cons, hvalues]

end Femtolog
