import Femtolog.Foundations.Text
import Femtolog.Logging.InternalLogger
import Femtolog.Sinks.Basic

/-!
# Logging/LogLevel — a level from its name

`log_level_from_string` tries the names one after the other, each over the length of the name.  A
string goes through as a level whenever it starts with a name, whatever follows: the parser takes
exactly the names only among strings of which no name is a proper part in front
(`takesNames_iff`).
-/

namespace Femtolog

/-! ## The parser -/

/-- `cmpstr`. -/
def cmpstr (a b : CString) : Option Bool :=
  (compareCells a.cells b.cells b.text.length).map fun order => decide (order = 0)

/-- `log_level_from_string`, undefined where it would read past the end of a string. -/
def logLevelFromString (str : CString) : Option LogLevel := do
  if ← cmpstr str (.literal "raw") then pure .kRaw
  else if ← cmpstr str (.literal "fatal") then pure .kFatal
  else if ← cmpstr str (.literal "error") then pure .kError
  else if ← cmpstr str (.literal "warn") then pure .kWarn
  else if ← cmpstr str (.literal "info") then pure .kInfo
  else if ← cmpstr str (.literal "debug") then pure .kDebug
  else if ← cmpstr str (.literal "trace") then pure .kTrace
  else pure .kUnknown

/-- `Logger::level` of a name. -/
def InternalLogger.levelOfStr (logger : InternalLogger) (levelStr : CString) :
    Option InternalLogger :=
  (logLevelFromString levelStr).map fun newLevel =>
    if newLevel ≠ .kUnknown then { logger with level := newLevel } else logger

/-! ## What it takes -/

/-- **The parser takes a string exactly as the level it names**, and one that names none leaves the
logger as it is. -/
structure TakesNames (str : CString) : Prop where
  level_iff : ∀ l, l ≠ .kUnknown →
    (logLevelFromString str = some l ↔ str.text = logLevelToLowerStr l)
  unchanged : ∀ logger : InternalLogger, (∀ l, l ≠ .kUnknown → str.text ≠ logLevelToLowerStr l) →
    logger.levelOfStr str = some logger

variable {str : CString}

/-- A string compares equal to every string it starts with. -/
theorem cmpstr_eq (a b : CString) : cmpstr a b = some (decide (b.text <+: a.text)) := by
  obtain ⟨order, horder, hzero⟩ := exists_compareCells a b.notMem [0]
  rw [cmpstr]
  change Option.map _ (compareCells a.cells (b.text ++ [0]) b.text.length) = _
  rw [horder, Option.map_some]
  exact congrArg some (decide_eq_decide.mpr hzero)

/-- The names of two levels are not in front of one string. -/
theorem eq_of_names_begin {text : List Byte} {l l' : LogLevel}
    (h : logLevelToLowerStr l <+: text) (h' : logLevelToLowerStr l' <+: text) : l = l' := by
  have hor := List.prefix_or_prefix_of_prefix h h'
  revert hor
  cases l <;> cases l' <;> decide

/-- The chain of comparisons, name by name. -/
theorem logLevelFromString_eq (str : CString) : logLevelFromString str
    = if logLevelToLowerStr .kRaw <+: str.text then some .kRaw
      else if logLevelToLowerStr .kFatal <+: str.text then some .kFatal
      else if logLevelToLowerStr .kError <+: str.text then some .kError
      else if logLevelToLowerStr .kWarn <+: str.text then some .kWarn
      else if logLevelToLowerStr .kInfo <+: str.text then some .kInfo
      else if logLevelToLowerStr .kDebug <+: str.text then some .kDebug
      else if logLevelToLowerStr .kTrace <+: str.text then some .kTrace
      else some .kUnknown := by
  simp only [logLevelFromString, cmpstr_eq, Option.bind_eq_bind, Option.bind_some,
    decide_eq_true_eq]
  rfl

/-- **A string that starts with the name of a level is taken as this level.** -/
theorem logLevelFromString_of_name {l : LogLevel} (hl : l ≠ .kUnknown)
    (h : logLevelToLowerStr l <+: str.text) : logLevelFromString str = some l := by
  have hother : ∀ l', l' ≠ l → ¬logLevelToLowerStr l' <+: str.text := fun _ hne h' =>
    hne (eq_of_names_begin h' h)
  rw [logLevelFromString_eq]
  cases l with
  | kUnknown => exact absurd rfl hl
  | _ => simp only [h, hother, ne_eq, reduceCtorEq, not_false_eq_true, if_true, if_false]

/-- … and every other string as none. -/
theorem logLevelFromString_eq_some_iff {l : LogLevel} (hl : l ≠ .kUnknown) :
    logLevelFromString str = some l ↔ logLevelToLowerStr l <+: str.text := by
  refine ⟨fun h => ?_, logLevelFromString_of_name hl⟩
  by_contra hnot
  rcases Classical.em (∃ l', l' ≠ .kUnknown ∧ logLevelToLowerStr l' <+: str.text) with
    ⟨l', hl', hname⟩ | hnone
  · obtain rfl := Option.some_inj.mp ((logLevelFromString_of_name hl' hname).symm.trans h)
    exact hnot hname
  · have hname : ∀ l', l' ≠ .kUnknown → ¬logLevelToLowerStr l' <+: str.text := fun l' hl' hname =>
      hnone ⟨l', hl', hname⟩
    simp only [logLevelFromString_eq, hname, ne_eq, reduceCtorEq, not_false_eq_true, if_false,
      Option.some.injEq] at h
    exact hl h.symm

/-- **Which strings are taken by their name**: those of which no name of a level is a proper part in
front. -/
theorem takesNames_iff (str : CString) : TakesNames str ↔
    ∀ l, l ≠ .kUnknown → logLevelToLowerStr l <+: str.text → str.text = logLevelToLowerStr l := by
  constructor
  · intro h l hl hname
    exact (h.level_iff l hl).mp (logLevelFromString_of_name hl hname)
  · intro h
    have hiff : ∀ l, l ≠ .kUnknown →
        (logLevelFromString str = some l ↔ str.text = logLevelToLowerStr l) := fun l hl =>
      (logLevelFromString_eq_some_iff hl).trans ⟨h l hl, fun heq => heq ▸ List.prefix_rfl⟩
    refine ⟨hiff, fun logger hother => ?_⟩
    obtain ⟨l, hstr⟩ : ∃ l, logLevelFromString str = some l := by
      rw [logLevelFromString_eq]
      split_ifs <;> exact ⟨_, rfl⟩
    rw [InternalLogger.levelOfStr, hstr, Option.map_some]
    rcases eq_or_ne l .kUnknown with rfl | hl
    · rfl
    · exact absurd ((hiff l hl).mp hstr) (hother l hl)

/-- A longer word than a name is taken as the name. -/
theorem not_takesNames_warning : ¬TakesNames (.literal "warning") := fun h =>
  absurd ((h.level_iff .kWarn (by decide)).mp (by decide)) (by decide)

end Femtolog
