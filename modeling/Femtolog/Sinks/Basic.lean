import Femtolog.Logging.LogEntry

/-!
# Sinks/Basic — the texts sinks write around a message

The name of each level and the escape sequence it is coloured with.
-/

namespace Femtolog

/-! ## Levels -/

/-- `log_level_to_lower_str`. -/
def logLevelToLowerStr : LogLevel → List Byte
  | .kRaw => ascii "raw"
  | .kFatal => ascii "fatal"
  | .kError => ascii "error"
  | .kWarn => ascii "warn"
  | .kInfo => ascii "info"
  | .kDebug => ascii "debug"
  | .kTrace => ascii "trace"
  | .kUnknown => ascii "unknown"

/-- `level_len`. -/
def levelLen (lvl : LogLevel) : ℕ := (logLevelToLowerStr lvl).length

/-! ## Escape sequences -/

/-- `kReset`. -/
def kReset : List Byte := ascii "\x1b[0m"

/-- `kBold`. -/
def kBold : List Byte := ascii "\x1b[1m"

/-- `kRed`. -/
def kRed : List Byte := ascii "\x1b[31m"

/-- `kYellow`. -/
def kYellow : List Byte := ascii "\x1b[33m"

/-- `kGreen`. -/
def kGreen : List Byte := ascii "\x1b[32m"

/-- `kCyan`. -/
def kCyan : List Byte := ascii "\x1b[36m"

/-- `kMagenta`. -/
def kMagenta : List Byte := ascii "\x1b[35m"

/-- `kGray`. -/
def kGray : List Byte := ascii "\x1b[90m"

/-- `log_level_to_ansi_color`. -/
def logLevelToAnsiColor : LogLevel → List Byte
  | .kRaw => kReset
  | .kFatal => kMagenta
  | .kError => kRed
  | .kWarn => kYellow
  | .kInfo => kGreen
  | .kDebug => kCyan
  | .kTrace => kGray
  | .kUnknown => []

/-- `level_ansi_len`. -/
def levelAnsiLen (lvl : LogLevel) : ℕ := (logLevelToAnsiColor lvl).length

end Femtolog
