import Mathlib.Data.List.GetD
import Femtolog.Foundations.Encoding
import Femtolog.Queue.Basic

/-!
# Logging/LogEntry — log entries as bytes

An entry is a record of fixed layout, 24 bytes with its padding, and the payload behind it.
`LogEntry::create` lays it out over a buffer; the worker reads it in place.  The first two bytes are
the length of the payload, so an entry tells its own length (`Frame`), and a queue of whole entries
can be read one by one.
-/

namespace Femtolog

/-! ## Levels -/

/-- `LogLevel`. -/
inductive LogLevel
  | kRaw
  | kFatal
  | kError
  | kWarn
  | kInfo
  | kDebug
  | kTrace
  | kUnknown
  deriving DecidableEq

namespace LogLevel

/-- The underlying `uint8_t`. -/
def toByte : LogLevel → Byte
  | kRaw => 0
  | kFatal => 1
  | kError => 2
  | kWarn => 3
  | kInfo => 4
  | kDebug => 5
  | kTrace => 6
  | kUnknown => 8

/-- The level a byte of an entry stands for. -/
def ofByte (b : Byte) : LogLevel :=
  match b.toNat with
  | 0 => kRaw
  | 1 => kFatal
  | 2 => kError
  | 3 => kWarn
  | 4 => kInfo
  | 5 => kDebug
  | 6 => kTrace
  | _ => kUnknown

@[simp] theorem ofByte_toByte (l : LogLevel) : ofByte l.toByte = l := by
  cases l <;> rfl

end LogLevel

/-! ## String ids -/

/-- `kLiteralLogStringId`. -/
def kLiteralLogStringId : BitVec 16 := 0xFFFF#16

/-- `hash_string`; a `char` is signed. -/
def hashString (str : List Byte) : BitVec 16 :=
  let hash := str.foldl
    (fun hash c => (hash ^^^ c.toBitVec.signExtend 64) * 0x100000001b3#64) 0xcbf29ce484222325#64
  ((hash >>> 16) ^^^ (hash &&& 0xFFFF#64)).setWidth 16

/-- `StringRegistry::get_string_id`. -/
def getStringId (str : List Byte) : BitVec 16 :=
  let id := hashString str
  if id = kLiteralLogStringId then kLiteralLogStringId - 1#16 else id

/-- No format string has the id of the literals. -/
theorem getStringId_ne (str : List Byte) : getStringId str ≠ kLiteralLogStringId := by
  intro h
  rw [getStringId] at h
  split_ifs at h with hid
  · exact absurd h (by decide)
  · exact hid h

/-! ## Entries -/

/-- `sizeof(LogEntry)`. -/
def sizeofLogEntry : ℕ := 24

/-- `kMaxPayloadSize`. -/
def kMaxPayloadSize : ℕ := 1024 - sizeofLogEntry

/-- A `LogEntry` with its payload. -/
@[ext] structure LogEntry where
  payloadLen : BitVec 16
  formatId : BitVec 16
  threadId : BitVec 32
  timestampNs : Size
  level : LogLevel
  payload : List Byte
  deriving DecidableEq

namespace LogEntry

/-- The members before the padding, as they lie in memory. -/
def fields (e : LogEntry) : List Byte :=
  bytesLE 2 e.payloadLen.toNat ++ (bytesLE 2 e.formatId.toNat ++ (bytesLE 4 e.threadId.toNat ++
    (bytesLE 8 e.timestampNs.toNat ++ [e.level.toByte])))

@[simp] theorem length_fields (e : LogEntry) : e.fields.length = 17 := by
  simp [fields]

/-- `LogEntry::create`: the members and the payload are stored over a buffer, which keeps what lies
in the padding and behind the payload. -/
def create (buffer : List Byte) (threadId : BitVec 32) (formatId : BitVec 16) (level : LogLevel)
    (timestampNs : Size) (payload : List Byte) : List Byte :=
  let entry : LogEntry :=
    ⟨BitVec.ofNat 16 payload.length, formatId, threadId, timestampNs, level, payload⟩
  splice (splice buffer 0 entry.fields) sizeofLogEntry payload

theorem length_create {buffer payload : List Byte} (threadId : BitVec 32) (formatId : BitVec 16)
    (level : LogLevel) (timestampNs : Size)
    (hroom : sizeofLogEntry + payload.length ≤ buffer.length) :
    (create buffer threadId formatId level timestampNs payload).length = buffer.length := by
  rw [sizeofLogEntry] at hroom
  have hhead : ∀ e : LogEntry, (splice buffer 0 e.fields).length = buffer.length := fun e =>
    length_splice (by rw [length_fields]; omega)
  rw [create, length_splice (by rw [hhead, sizeofLogEntry]; exact hroom), hhead]

/-- The entry that lies at the start of a buffer. -/
def parse (buffer : List Byte) : LogEntry :=
  let payloadLen := BitVec.ofNat 16 (ofBytesLE (slice buffer 0 2))
  { payloadLen
    formatId := BitVec.ofNat 16 (ofBytesLE (slice buffer 2 2))
    threadId := BitVec.ofNat 32 (ofBytesLE (slice buffer 4 4))
    timestampNs := BitVec.ofNat 64 (ofBytesLE (slice buffer 8 8))
    level := LogLevel.ofByte (buffer.getD 16 0)
    payload := slice buffer sizeofLogEntry payloadLen.toNat }

/-- `total_size`. -/
def totalSize (e : LogEntry) : ℕ := sizeofLogEntry + e.payloadLen.toNat

/-! ## Reading what was created -/

/-- The length field is the length of the payload. -/
def Sized (e : LogEntry) : Prop := e.payload.length = e.payloadLen.toNat

/-- **An entry is read as it was laid out**, whatever lies in its padding and behind it. -/
theorem parse_layout {e : LogEntry} (he : e.Sized) {pad : List Byte} (hpad : pad.length = 7)
    (rest : List Byte) : parse (e.fields ++ (pad ++ (e.payload ++ rest))) = e := by
  have hlayout : e.fields ++ (pad ++ (e.payload ++ rest))
      = bytesLE 2 e.payloadLen.toNat ++ (bytesLE 2 e.formatId.toNat ++ (bytesLE 4 e.threadId.toNat
        ++ (bytesLE 8 e.timestampNs.toNat ++ ([e.level.toByte]
          ++ (pad ++ (e.payload ++ rest)))))) := by
    simp only [fields, List.append_assoc]
  have hlen : slice (e.fields ++ (pad ++ (e.payload ++ rest))) 0 2
      = bytesLE 2 e.payloadLen.toNat := by
    rw [hlayout, ← List.nil_append (bytesLE 2 _ ++ _)]
    exact slice_append_left rfl (length_bytesLE 2 _).symm
  have hformat : slice (e.fields ++ (pad ++ (e.payload ++ rest))) 2 2
      = bytesLE 2 e.formatId.toNat := by
    rw [hlayout]
    exact slice_append_left (length_bytesLE 2 _).symm (length_bytesLE 2 _).symm
  have hthread : slice (e.fields ++ (pad ++ (e.payload ++ rest))) 4 4
      = bytesLE 4 e.threadId.toNat := by
    rw [hlayout, ← List.append_assoc (bytesLE 2 _)]
    exact slice_append_left (by simp) (length_bytesLE 4 _).symm
  have htime : slice (e.fields ++ (pad ++ (e.payload ++ rest))) 8 8
      = bytesLE 8 e.timestampNs.toNat := by
    rw [hlayout, ← List.append_assoc (bytesLE 2 _), ← List.append_assoc (bytesLE 2 _ ++ _)]
    exact slice_append_left (by simp) (length_bytesLE 8 _).symm
  have hlevel : (e.fields ++ (pad ++ (e.payload ++ rest))).getD 16 0 = e.level.toByte := by
    have hfields : e.fields = (bytesLE 2 e.payloadLen.toNat ++ (bytesLE 2 e.formatId.toNat
        ++ (bytesLE 4 e.threadId.toNat ++ bytesLE 8 e.timestampNs.toNat))) ++ [e.level.toByte] := by
      simp only [fields, List.append_assoc]
    rw [hfields, List.append_assoc, List.getD_append_right _ _ _ _ (by simp)]
    simp
  have hpayload : slice (e.fields ++ (pad ++ (e.payload ++ rest))) sizeofLogEntry
      e.payloadLen.toNat = e.payload := by
    rw [← List.append_assoc]
    exact slice_append_left (by simp [sizeofLogEntry, hpad]) he.symm
  rw [parse]
  simp only [hlen, hformat, hthread, htime, hlevel, LogLevel.ofByte_toByte]
  simp only [ofNat_ofBytesLE e.payloadLen (k := 2) (by norm_num), hpayload,
    ofNat_ofBytesLE e.formatId (k := 2) (by norm_num),
    ofNat_ofBytesLE e.threadId (k := 4) (by norm_num),
    ofNat_ofBytesLE e.timestampNs (k := 8) (by norm_num)]

/-- **`bytes` hold the entry `e`**, and nothing else. -/
structure IsFrame (e : LogEntry) (bytes : List Byte) : Prop where
  sized : e.Sized
  layout : ∃ pad, pad.length = 7 ∧ bytes = e.fields ++ (pad ++ e.payload)

namespace IsFrame

variable {e : LogEntry} {bytes : List Byte}

/-- A frame is as long as its entry says. -/
theorem length_eq (h : e.IsFrame bytes) : bytes.length = e.totalSize := by
  obtain ⟨pad, hpad, rfl⟩ := h.layout
  simp only [List.length_append, length_fields, hpad, h.sized.symm, totalSize, sizeofLogEntry]
  omega

theorem length_lt (h : e.IsFrame bytes) : bytes.length < 2 ^ 64 := by
  rw [h.length_eq, totalSize, sizeofLogEntry]
  have := e.payloadLen.isLt
  omega

/-- The entry is read off the front of whatever follows. -/
theorem parse_append (h : e.IsFrame bytes) (rest : List Byte) : parse (bytes ++ rest) = e := by
  obtain ⟨pad, hpad, rfl⟩ := h.layout
  rw [List.append_assoc, List.append_assoc]
  exact parse_layout h.sized hpad rest

/-- The first two bytes are the length field. -/
theorem take_two (h : e.IsFrame bytes) (rest : List Byte) :
    (bytes ++ rest).take 2 = bytesLE 2 e.payloadLen.toNat := by
  obtain ⟨pad, hpad, rfl⟩ := h.layout
  rw [fields, List.append_assoc, List.append_assoc]
  exact List.take_left' (length_bytesLE 2 _)

/-- The payload lies behind the entry. -/
theorem drop_append (h : e.IsFrame bytes) (rest : List Byte) :
    (bytes ++ rest).drop sizeofLogEntry = e.payload ++ rest := by
  obtain ⟨pad, hpad, rfl⟩ := h.layout
  rw [List.append_assoc, List.append_assoc, ← List.append_assoc]
  exact List.drop_left' (by simp [sizeofLogEntry, hpad])

end IsFrame

/-- **What `create` lays out is a frame.** -/
theorem isFrame_create {buffer payload : List Byte} (threadId : BitVec 32) (formatId : BitVec 16)
    (level : LogLevel) (timestampNs : Size) (hlen : payload.length < 2 ^ 16)
    (hroom : sizeofLogEntry + payload.length ≤ buffer.length) :
    IsFrame ⟨BitVec.ofNat 16 payload.length, formatId, threadId, timestampNs, level, payload⟩
      ((create buffer threadId formatId level timestampNs payload).take
        (sizeofLogEntry + payload.length)) := by
  refine ⟨(toNat_ofNat_of_lt hlen).symm, (buffer.drop 17).take 7, ?_, ?_⟩
  · rw [List.length_take, List.length_drop]
    rw [sizeofLogEntry] at hroom
    omega
  · have hhead : ∀ e : LogEntry, (splice buffer 0 e.fields).take sizeofLogEntry
        = e.fields ++ (buffer.drop 17).take 7 := by
      intro e
      rw [splice_zero, List.take_append, length_fields,
        List.take_of_length_le (by simp [sizeofLogEntry])]
      rfl
    have htail : sizeofLogEntry + payload.length
        = (((splice buffer 0 (LogEntry.mk (BitVec.ofNat 16 payload.length) formatId threadId
          timestampNs level payload).fields).take sizeofLogEntry) ++ payload).length := by
      rw [hhead]
      simp only [List.length_append, length_fields, List.length_take, List.length_drop,
        sizeofLogEntry] at hroom ⊢
      omega
    rw [create, splice, List.take_left' htail.symm, hhead, List.append_assoc]

end LogEntry

end Femtolog
