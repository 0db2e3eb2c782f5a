import Mathlib.Data.Bool.AllAny
import Femtolog.Foundations.Json
import Femtolog.Foundations.Scratch
import Femtolog.Foundations.Text
import Femtolog.Core.StringUtil
import Femtolog.Sinks.Basic

/-!
# Sinks/JsonLinesSink — a JSON object for each record

`on_log` escapes the content, formats the line into an array on the stack, and passes as many bytes
of it on as the formatter says the line has.

The escaper knows line breaks, tabs and backslashes.  JSON also forbids quotes and the other control
characters inside a string: a content without them is read back from its line, and no other is
(`json_line_valid_iff`).
-/

namespace Femtolog

/-- `JsonLinesSink`: the descriptor, `buffer_` with `cursor_`, and what has been passed to `write`,
call by call. -/
structure JsonLinesSink where
  fd : ℤ
  buffer : Scratch Byte
  writes : List (List Byte)

namespace JsonLinesSink

/-! ## The sink -/

/-- `kBufferCapacity`. -/
def kBufferCapacity : ℕ := 8192

/-- `kMaxJsonLineSize`. -/
def kMaxJsonLineSize : ℕ := 2048

/-- The text of a line, up to its line break. -/
def lineBody (entry : LogEntry) (content : List Byte) : List Byte :=
  ascii "\x7b\"timestamp\": " ++ decimal entry.timestampNs.toNat
    ++ ascii ", \"level\": \"" ++ logLevelToLowerStr entry.level
    ++ ascii "\", \"message\": \"" ++ encodeEscape content ++ ascii "\"\x7d"

/-- The text of a line, whatever its length. -/
def lineText (entry : LogEntry) (content : List Byte) : List Byte :=
  lineBody entry content ++ [0x0A]

/-- The bytes `on_log` passes on: `fmt::format_to_n` stores what fits `line`, and returns the length
of the whole text, which many bytes of `line` are then read; undefined past its end. -/
def line (entry : LogEntry) (content : List Byte) : Option (List Byte) :=
  let text := lineText entry content
  let line := splice (List.replicate kMaxJsonLineSize 0) 0 (text.take kMaxJsonLineSize)
  window line 0 text.length

/-- `flush`. -/
def flush (s : JsonLinesSink) : JsonLinesSink :=
  if s.buffer.pos = 0 ∨ s.fd < 0 then s
  else { s with writes := s.writes ++ [s.buffer.filled], buffer := s.buffer.rewind }

/-- `write_raw`. -/
def writeRaw (s : JsonLinesSink) (data : List Byte) : JsonLinesSink :=
  if s.fd < 0 then s else { s with writes := s.writes ++ [data] }

/-- `on_log` from the formatted line on. -/
def emit (enableBuffering : Bool) (s : JsonLinesSink) (line : List Byte) : JsonLinesSink :=
  if ¬enableBuffering then s.writeRaw line
  else
    let s := if kBufferCapacity < s.buffer.pos + line.length then s.flush else s
    if kBufferCapacity < line.length then s.writeRaw line
    else { s with buffer := s.buffer.memcpy line }

/-- `on_log`. -/
def onLog (enableBuffering : Bool) (s : JsonLinesSink) (entry : LogEntry) (content : List Byte) :
    Option JsonLinesSink := (line entry content).map (s.emit enableBuffering)

variable {entry : LogEntry} {content : List Byte}

/-- A line that fits its array is passed on as it is. -/
theorem line_eq (hfits : (lineText entry content).length ≤ kMaxJsonLineSize) :
    line entry content = some (lineText entry content) := by
  rw [line, List.take_of_length_le hfits, splice_zero]
  generalize lineText entry content = text
  have hwindow : ∀ rest, window ([] ++ (text ++ rest)) 0 text.length = some text := fun _ =>
    window_eq rfl rfl
  exact hwindow _

/-! ## What the line stands for -/

/-- The code points of an ASCII text. -/
def units (text : List Byte) : List ℕ := text.map UInt8.toNat

/-- **A line for this entry and content**: an ASCII text whose only newline is the last byte, and a
JSON object with the timestamp and the level of the entry and the content as its message. -/
def ValidLine (entry : LogEntry) (content line : List Byte) : Prop :=
  ∃ body members, line = body ++ [0x0A] ∧ (0x0A : Byte) ∉ body ∧ (∀ b ∈ body, b < 0x80)
    ∧ Json.parse (body.map Char.ofUInt8) = some (.object members)
    ∧ Json.HasMember members (units (ascii "timestamp")) (.number entry.timestampNs.toNat 0)
    ∧ Json.HasMember members (units (ascii "level"))
        (.string (units (logLevelToLowerStr entry.level)))
    ∧ Json.HasMember members (units (ascii "message")) (.string (units content))

/-- What the escaper leaves valid inside a JSON string: no quote, and of the control characters
those it escapes. -/
def JsonSafe (b : Byte) : Prop :=
  b ≠ 0x22 ∧ (0x20 ≤ b ∨ b = 0x0A ∨ b = 0x0D ∨ b = 0x09)

instance (b : Byte) : Decidable (JsonSafe b) := inferInstanceAs (Decidable (_ ∧ _))

theorem ofUInt8_ne {b c : Byte} (h : b ≠ c) : Char.ofUInt8 b ≠ Char.ofUInt8 c := fun heq =>
  h (UInt8.toNat_inj.mp (congrArg Char.toNat heq))

/-- **Every byte that is safe is read back** from what the escaper writes for it. -/
theorem spells_escapeChar {b : Byte} (hsafe : JsonSafe b) :
    Json.Spells ((escapeChar b).map Char.ofUInt8) b.toNat := by
  obtain ⟨hquote, hcontrol⟩ := hsafe
  rw [escapeChar]
  split_ifs with hn hr ht hs
  · exact hn ▸ Json.spells_escape (c := 'n') (by decide) rfl
  · exact hr ▸ Json.spells_escape (c := 'r') (by decide) rfl
  · exact ht ▸ Json.spells_escape (c := 't') (by decide) rfl
  · exact hs ▸ Json.spells_escape (c := '\\') (by decide) rfl
  · have hbound : 0x20 ≤ b := by
      rcases hcontrol with h | h | h | h
      · exact h
      · exact absurd h hn
      · exact absurd h hr
      · exact absurd h ht
    exact Json.spells_plain (c := Char.ofUInt8 b) (ofUInt8_ne hquote) (ofUInt8_ne hs) hbound

theorem spells_encodeEscape {content : List Byte} (hsafe : ∀ b ∈ content, JsonSafe b) :
    List.Forall₂ Json.Spells (content.map fun b => (escapeChar b).map Char.ofUInt8)
      (units content) := by
  rw [units, List.forall₂_map_left_iff, List.forall₂_map_right_iff, List.forall₂_same]
  exact fun b hb => spells_escapeChar (hsafe b hb)

theorem map_encodeEscape (content : List Byte) :
    (encodeEscape content).map Char.ofUInt8
      = (content.map fun b => (escapeChar b).map Char.ofUInt8).flatten := by
  rw [encodeEscape, List.map_flatMap, List.flatMap_def]

/-! ## Reading a line -/

theorem map_ascii {text : String} (h : (text.toList.all fun c => c.toNat < 256) = true) :
    (ascii text).map Char.ofUInt8 = text.toList := by
  rw [List.all_iff_forall_prop] at h
  rw [ascii, List.map_map]
  exact (List.map_congr_left fun c hc => ofUInt8_ofNat (h c hc)).trans (List.map_id _)

/-- The characters of a line. -/
theorem map_lineBody (entry : LogEntry) (content : List Byte) :
    (lineBody entry content).map Char.ofUInt8
      = '{' :: '"' :: ("timestamp".toList ++ '"' :: ':' :: ' ' ::
        (Nat.toDigits 10 entry.timestampNs.toNat ++ ',' :: ' ' :: '"' :: ("level".toList
          ++ '"' :: ':' :: ' ' :: '"' :: ((logLevelToLowerStr entry.level).map Char.ofUInt8
          ++ '"' :: ',' :: ' ' :: '"' :: ("message".toList ++ '"' :: ':' :: ' ' :: '"' ::
            ((encodeEscape content).map Char.ofUInt8 ++ ['"', '}'])))))) := by
  have hstart : (ascii "\x7b\"timestamp\": ").map Char.ofUInt8
      = '{' :: '"' :: ("timestamp".toList ++ ['"', ':', ' ']) := map_ascii (by decide)
  have hlevel : (ascii ", \"level\": \"").map Char.ofUInt8
      = ',' :: ' ' :: '"' :: ("level".toList ++ ['"', ':', ' ', '"']) := map_ascii (by decide)
  have hmessage : (ascii "\", \"message\": \"").map Char.ofUInt8
      = '"' :: ',' :: ' ' :: '"' :: ("message".toList ++ ['"', ':', ' ', '"']) :=
    map_ascii (by decide)
  have hend : (ascii "\"\x7d").map Char.ofUInt8 = ['"', '}'] := map_ascii (by decide)
  simp only [lineBody, List.map_append, map_decimal, hstart, hlevel, hmessage, hend,
    List.append_assoc, List.cons_append, List.nil_append]

/-- Apart from its newline, a line is plain text. -/
theorem lineBody_plain (hascii : ∀ b ∈ content, b < 0x80) :
    ∀ b ∈ lineBody entry content, b ≠ 0x0A ∧ b < 0x80 := by
  have hlevel : ∀ b ∈ logLevelToLowerStr entry.level, b ≠ 0x0A ∧ b < 0x80 := by
    cases entry.level <;> exact List.all_iff_forall_prop.mp (by decide)
  have hdecimal : ∀ n, ∀ b ∈ decimal n, b ≠ 0x0A ∧ b < 0x80 := by
    intro n b hb
    obtain ⟨hlow, hhigh⟩ := mem_decimal hb
    exact ⟨by rintro rfl; exact absurd hlow (by decide), UInt8.lt_of_le_of_lt hhigh (by decide)⟩
  have hcontent : ∀ b ∈ encodeEscape content, b ≠ 0x0A ∧ b < 0x80 := by
    intro b hb
    refine ⟨fun heq => newline_notMem_encodeEscape content (heq ▸ hb), ?_⟩
    obtain ⟨c, hc, hbc⟩ := List.mem_flatMap.mp hb
    rw [escapeChar] at hbc
    have hescape : ∀ {text : List Byte}, (text.all fun b => b < 0x80) = true →
        ∀ b ∈ text, b < 0x80 := List.all_iff_forall_prop.mp
    split_ifs at hbc
    · exact hescape (by decide) b hbc
    · exact hescape (by decide) b hbc
    · exact hescape (by decide) b hbc
    · exact hescape (by decide) b hbc
    · exact List.mem_singleton.mp hbc ▸ hascii c hc
  simp only [lineBody, List.forall_mem_append]
  have hfixed : ∀ {text : List Byte}, (text.all fun b => b ≠ 0x0A ∧ b < 0x80) = true →
      ∀ b ∈ text, b ≠ 0x0A ∧ b < 0x80 := List.all_iff_forall_prop.mp
  exact ⟨⟨⟨⟨⟨⟨hfixed (by decide), hdecimal _⟩, hfixed (by decide)⟩, hlevel⟩, hfixed (by decide)⟩,
    hcontent⟩, hfixed (by decide)⟩

/-- A text without quotes, backslashes and control characters. -/
theorem plain_of_all {text : List Char}
    (h : (text.all fun c => c ≠ '"' ∧ c ≠ '\\' ∧ 0x20 ≤ c.toNat) = true) :
    ∀ c ∈ text, c ≠ '"' ∧ c ≠ '\\' ∧ 0x20 ≤ c.toNat := List.all_iff_forall_prop.mp h

/-- The members in front of the message. -/
def headMembers (entry : LogEntry) : List (List ℕ × Json) :=
  [(units (ascii "timestamp"), .number entry.timestampNs.toNat 0),
    (units (ascii "level"), .string (units (logLevelToLowerStr entry.level)))]

/-- A line is read up to its message. -/
theorem value_lineBody (entry : LogEntry) (content : List Byte) (k : ℕ) :
    Json.value (k + 4) ((lineBody entry content).map Char.ofUInt8)
      = (Json.items (Json.member (Json.value (k + 3))) '}' (k + 1)
          (' ' :: '"' :: ("message".toList ++ '"' :: ':' :: ' ' :: '"' ::
            ((encodeEscape content).map Char.ofUInt8 ++ ['"', '}'])))).map
        fun r => (.object (headMembers entry ++ r.1), r.2) := by
  have hplain : ∀ c ∈ (logLevelToLowerStr entry.level).map Char.ofUInt8,
      c ≠ '"' ∧ c ≠ '\\' ∧ 0x20 ≤ c.toNat := by
    cases entry.level <;> exact plain_of_all (by decide)
  have hlevel : ((logLevelToLowerStr entry.level).map Char.ofUInt8).map Char.toNat
      = units (logLevelToLowerStr entry.level) := List.map_map
  have hfirst : ∀ rest, Json.member (Json.value (k + 3)) ('"' :: ("timestamp".toList
      ++ '"' :: ':' :: ' ' :: (Nat.toDigits 10 entry.timestampNs.toNat ++ ',' :: rest)))
        = some ((units (ascii "timestamp"), .number entry.timestampNs.toNat 0), ',' :: rest) := by
    intro rest
    rw [Json.member_name (plain_of_all (by decide)), Json.value_space,
      Json.value_decimal _ _ (by decide) (by decide) (by decide)]
    rfl
  have hsecond : ∀ rest, Json.member (Json.value (k + 3)) (' ' :: '"' :: ("level".toList
      ++ '"' :: ':' :: ' ' :: '"' :: ((logLevelToLowerStr entry.level).map Char.ofUInt8
        ++ '"' :: ',' :: rest)))
        = some ((units (ascii "level"), .string (units (logLevelToLowerStr entry.level))),
          ',' :: rest) := by
    intro rest
    rw [Json.member_space, Json.member_name (plain_of_all (by decide)), Json.value_space,
      Json.value_quote, Json.stringBody_name hplain, hlevel]
    rfl
  rw [map_lineBody, Json.value_brace, Json.items_cons (hfirst _), Json.items_cons (hsecond _),
    Option.map_map, Option.map_map]
  rfl

/-- The message of a line, up to what follows it. -/
theorem member_message (k : ℕ) (text : List Char) :
    Json.member (Json.value (k + 1)) (' ' :: '"' :: ("message".toList ++ '"' :: ':' :: ' ' :: '"' ::
        text))
      = (Json.stringBody text).map fun r => ((units (ascii "message"), .string r.1), r.2) := by
  rw [Json.member_space, Json.member_name (plain_of_all (by decide)), Json.value_space,
    Json.value_quote, Option.map_map]
  rfl

/-- A line is long enough to be read. -/
theorem parse_lineBody (entry : LogEntry) (content : List Byte) :
    ∃ k, Json.parse ((lineBody entry content).map Char.ofUInt8)
      = (Json.value (k + 4) ((lineBody entry content).map Char.ofUInt8)).bind fun r =>
        if Json.skipWs r.2 = [] then some r.1 else none := by
  obtain ⟨k, hk⟩ : ∃ k, ((lineBody entry content).map Char.ofUInt8).length = k + 3 := by
    refine ⟨((lineBody entry content).map Char.ofUInt8).length - 3, ?_⟩
    rw [map_lineBody]
    simp only [List.length_cons, List.length_append]
    omega
  refine ⟨k, ?_⟩
  rw [Json.parse, hk]
  rfl

/-- A safe content is read back. -/
theorem parse_safe (hsafe : ∀ b ∈ content, JsonSafe b) :
    Json.parse ((lineBody entry content).map Char.ofUInt8)
      = some (.object (headMembers entry
          ++ [(units (ascii "message"), .string (units content))])) := by
  obtain ⟨k, hparse⟩ := parse_lineBody entry content
  have hmessage := member_message (k + 2) ((encodeEscape content).map Char.ofUInt8 ++ ['"', '}'])
  rw [map_encodeEscape, Json.stringBody_append (spells_encodeEscape hsafe)] at hmessage
  rw [hparse, value_lineBody, map_encodeEscape,
    Json.items_last hmessage (by decide) (by decide)]
  rfl

/-- What is not safe is not escaped. -/
theorem escapeChar_of_not_safe {b : Byte} (hb : ¬JsonSafe b) : escapeChar b = [b] := by
  rw [JsonSafe] at hb
  rw [escapeChar]
  split_ifs with hn hr ht hs
  · exact absurd ⟨hn ▸ by decide, .inr (.inl hn)⟩ hb
  · exact absurd ⟨hr ▸ by decide, .inr (.inr (.inl hr))⟩ hb
  · exact absurd ⟨ht ▸ by decide, .inr (.inr (.inr ht))⟩ hb
  · exact absurd ⟨hs ▸ by decide, .inl (hs ▸ by decide)⟩ hb
  · rfl

theorem lt_of_not_safe {b : Byte} (hb : ¬JsonSafe b) (hquote : b ≠ 0x22) : b < 0x20 :=
  UInt8.not_le.mp fun hle => hb ⟨hquote, .inl hle⟩

/-- The first byte that is not safe. -/
theorem exists_not_safe (hbreaks : ∃ b ∈ content, ¬JsonSafe b) :
    ∃ b before after, content = before ++ b :: after ∧ ¬JsonSafe b
      ∧ ∀ c ∈ before, JsonSafe c := by
  obtain ⟨c, hc, hcb⟩ := hbreaks
  obtain ⟨b, hfind⟩ : ∃ b, content.find? (fun b => ¬JsonSafe b) = some b :=
    Option.isSome_iff_exists.mp (List.find?_isSome.mpr ⟨c, hc, decide_eq_true hcb⟩)
  obtain ⟨hb, before, after, hcontent, hbefore⟩ := List.find?_eq_some_iff_append.mp hfind
  exact ⟨b, before, after, hcontent, of_decide_eq_true hb, fun c hc => by simpa using hbefore c hc⟩

/-- A byte that is not safe stands in the line as it is, behind what comes before it. -/
theorem encodeEscape_of_not_safe {before after : List Byte} {b : Byte} (hb : ¬JsonSafe b)
    (rest : List Char) : (encodeEscape (before ++ b :: after)).map Char.ofUInt8 ++ rest
      = (before.map fun b => (escapeChar b).map Char.ofUInt8).flatten
        ++ Char.ofUInt8 b :: ((encodeEscape after).map Char.ofUInt8 ++ rest) := by
  rw [← map_encodeEscape]
  simp only [encodeEscape, List.flatMap_append, List.flatMap_cons, escapeChar_of_not_safe hb,
    List.map_append, List.map_cons, List.append_assoc, List.cons_append, List.nil_append]

/-- A message that ends at a byte of the content is not the content. -/
theorem not_hasMember_before {before after : List Byte} {b : Byte}
    {rest : List (List ℕ × Json)} : ¬Json.HasMember
      (headMembers entry ++ (units (ascii "message"), .string (units before)) :: rest)
      (units (ascii "message")) (.string (units (before ++ b :: after))) := by
  intro hmember
  have hnames : ∀ name ∈ (headMembers entry).map Prod.fst, name ≠ units (ascii "message") := by
    change ∀ name ∈ [units (ascii "timestamp"), units (ascii "level")], _
    decide
  have hsame := Json.string.inj
    (hmember.eq_of_first fun m hm => hnames m.1 (List.mem_map_of_mem hm))
  have hlength := congrArg List.length hsame
  rw [units, units, List.length_map, List.length_map, List.length_append,
    List.length_cons] at hlength
  omega

/-- **A content that is not safe is not read back**, whatever the rest of its line looks like. -/
theorem not_parse_of_not_safe (hbreaks : ∃ b ∈ content, ¬JsonSafe b)
    {members : List (List ℕ × Json)}
    (hparse : Json.parse ((lineBody entry content).map Char.ofUInt8) = some (.object members)) :
    ¬Json.HasMember members (units (ascii "message")) (.string (units content)) := by
  obtain ⟨b, before, after, rfl, hb, hbefore⟩ := exists_not_safe hbreaks
  have hspells := spells_encodeEscape hbefore
  obtain ⟨k, hk⟩ := parse_lineBody entry (before ++ b :: after)
  have hmessage := member_message (k + 2)
    ((encodeEscape (before ++ b :: after)).map Char.ofUInt8 ++ ['"', '}'])
  rw [hk, value_lineBody] at hparse
  obtain ⟨r, hr, hend⟩ := Option.bind_eq_some_iff.mp hparse
  obtain ⟨⟨xs, rest⟩, hitems, rfl⟩ := Option.map_eq_some_iff.mp hr
  rw [encodeEscape_of_not_safe hb] at hmessage hitems
  by_cases hquote : b = 0x22
  · -- the message ends at the quote
    subst hquote
    rw [show Char.ofUInt8 0x22 = '"' from rfl, Json.stringBody_append hspells] at hmessage
    obtain ⟨xs', rfl⟩ := Json.first_of_items hmessage hitems
    have hmembers : .object (headMembers entry
        ++ (units (ascii "message"), .string (units before)) :: xs') = Json.object members := by
      dsimp only at hend
      split_ifs at hend
      exact Option.some.inj hend
    rw [← Json.object.inj hmembers]
    exact not_hasMember_before
  · -- there is no message
    have hcontrol : (Char.ofUInt8 b).toNat < 0x20 := lt_of_not_safe hb hquote
    rw [Json.stringBody_control hspells hcontrol] at hmessage
    rw [Json.items_none hmessage] at hitems
    cases hitems

/-- **The line of an entry is valid JSON for it** exactly if its content has no quote and no control
characters but line breaks, carriage returns and tabs. -/
theorem json_line_valid_iff (hascii : ∀ b ∈ content, b < 0x80)
    (hfits : (lineText entry content).length ≤ kMaxJsonLineSize) :
    (∃ bytes, line entry content = some bytes ∧ ValidLine entry content bytes)
      ↔ ∀ b ∈ content, JsonSafe b := by
  constructor
  · rintro ⟨bytes, hline, body, members, hbody, -, -, hparse, -, -, hmessage⟩
    obtain rfl : lineText entry content = bytes :=
      Option.some.inj ((line_eq hfits).symm.trans hline)
    obtain rfl : lineBody entry content = body := List.append_cancel_right hbody
    intro b hb
    by_contra hbreaks
    exact not_parse_of_not_safe ⟨b, hb, hbreaks⟩ hparse hmessage
  · intro hsafe
    have hplain : ∀ b ∈ lineBody entry content, b ≠ 0x0A ∧ b < 0x80 := lineBody_plain hascii
    refine ⟨lineText entry content, line_eq hfits, lineBody entry content, _, rfl,
      fun hmem => (hplain _ hmem).1 rfl, fun b hb => (hplain b hb).2, parse_safe hsafe, ?_, ?_, ?_⟩
    · rfl
    · rfl
    · rfl

theorem json_line_valid_iff_break :
    (∃ bytes, line ⟨3, 0, 1, 1700000000, .kInfo, []⟩ (ascii "a\\b\n") = some bytes
      ∧ ValidLine ⟨3, 0, 1, 1700000000, .kInfo, []⟩ (ascii "a\\b\n") bytes)
      ↔ ∀ b ∈ ascii "a\\b\n", JsonSafe b :=
  json_line_valid_iff (List.all_iff_forall_prop.mp (by decide)) (by decide)

/-- A message that is a single quote. -/
theorem json_line_quote : ¬∀ (entry : LogEntry) (content : List Byte), (∀ b ∈ content, b < 0x80) →
    (lineText entry content).length ≤ kMaxJsonLineSize →
    ∃ bytes, line entry content = some bytes ∧ ValidLine entry content bytes := by
  intro hall
  have hfits : (lineText ⟨1, 0, 1, 0, .kInfo, []⟩ [0x22]).length ≤ kMaxJsonLineSize := by decide
  obtain ⟨bytes, hline, body, members, hbody, -, -, hparse, -, -, hmessage⟩ :=
    hall ⟨1, 0, 1, 0, .kInfo, []⟩ [0x22] (List.all_iff_forall_prop.mp (by decide)) hfits
  obtain rfl : lineText ⟨1, 0, 1, 0, .kInfo, []⟩ [0x22] = bytes :=
    Option.some.inj ((line_eq hfits).symm.trans hline)
  obtain rfl : lineBody ⟨1, 0, 1, 0, .kInfo, []⟩ [0x22] = body := List.append_cancel_right hbody
  exact not_parse_of_not_safe ⟨0x22, List.mem_singleton_self _, by decide⟩ hparse hmessage

end JsonLinesSink

end Femtolog
