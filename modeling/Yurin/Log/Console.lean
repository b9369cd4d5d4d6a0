import Yurin.Log.Caller
import Yurin.Text.Quoted

/-!
# Log lines

A log line for people holds time, level, caller and message, and then the fields sorted by name,
`error` before the others. Entries below the level of the log are not written.
-/

namespace Yurin

/-- How important an entry is, in rising order. -/
inductive LogLevel
  | trace | debug | info | warn | error | fatal | panic
  deriving DecidableEq, Repr

namespace LogLevel

/-- The levels in rising order. -/
def all : List LogLevel := [.trace, .debug, .info, .warn, .error, .fatal, .panic]

/-- The place of a level in the order. -/
def rank (l : LogLevel) : Nat := all.idxOf l

/-- The name of a level. -/
def name : LogLevel → String
  | .trace => "trace"
  | .debug => "debug"
  | .info => "info"
  | .warn => "warn"
  | .error => "error"
  | .fatal => "fatal"
  | .panic => "panic"

/-- The level with a name. -/
def ofName? (name : Bytes) : Option LogLevel := all.find? fun l => utf8 l.name == name

/-- The three letters of a level in a line. -/
def tag : LogLevel → String
  | .trace => "TRC"
  | .debug => "DBG"
  | .info => "INF"
  | .warn => "WRN"
  | .error => "ERR"
  | .fatal => "FTL"
  | .panic => "PNC"

/-- The color of a level; `debug` has none. -/
def color? : LogLevel → Option Nat
  | .trace => some Sgr.blue
  | .debug => none
  | .info => some Sgr.green
  | .warn => some Sgr.yellow
  | .error | .fatal | .panic => some Sgr.red

end LogLevel

/-- Something to log. -/
structure LogEntry where
  level : LogLevel
  message : Bytes
  fields : List (Bytes × Bytes)
  deriving DecidableEq, Repr

/-- A log for people. -/
structure ConsoleLog where
  /-- Whether `debug` entries are written, beside those of `info` and above. -/
  debug : Bool
  colored : Bool
  deriving DecidableEq, Repr

namespace ConsoleLog

/-- The lowest level that a log writes. -/
def threshold (log : ConsoleLog) : LogLevel := if log.debug then .debug else .info

/-- A text in a color, if the log has colors. -/
def shade (log : ConsoleLog) (color : Nat) (text : Bytes) : Bytes :=
  if log.colored then Sgr.shade color text else text

/-- Whether a field value has to be quoted. -/
def needsQuotes (value : Bytes) : Bool :=
  value.any fun b => b ≤ 32 || 126 < b || b == Ascii.quote || b == Ascii.backslash

/-- The name of the field that comes first. -/
def errorField : Bytes := utf8 "error"

/-- A field as name and value. -/
def field (log : ConsoleLog) (name value : Bytes) : Bytes :=
  let shown := if needsQuotes value then quoted value else value
  log.shade Sgr.cyan (name ++ utf8 "=")
    ++ if name = errorField then log.shade Sgr.red (log.shade Sgr.bold shown) else shown

/-- The fields of an entry in the order in which they are written. -/
def ordered (fields : List (Bytes × Bytes)) : List (Bytes × Bytes) :=
  let sorted := fields.mergeSort fun a b => Bytes.le a.1 b.1
  sorted.filter (·.1 == errorField) ++ sorted.filter (·.1 != errorField)

/-- The level of an entry as it is written. -/
def levelText (log : ConsoleLog) (level : LogLevel) : Bytes :=
  match level.color? with
  | some color => log.shade color (utf8 level.tag)
  | none => utf8 level.tag

/-- The message of an entry as it is written: bold from `info` on. -/
def messageText (log : ConsoleLog) (entry : LogEntry) : Bytes :=
  if entry.message.isEmpty then []
  else if LogLevel.info.rank ≤ entry.level.rank then log.shade Sgr.bold entry.message
  else entry.message

/-- The line of an entry, or nothing when its level is too low. Empty parts are left out. -/
def line (log : ConsoleLog) (time : Bytes) (caller : Caller) (entry : LogEntry) : Bytes :=
  if entry.level.rank < log.threshold.rank then []
  else
    let parts := [log.shade Sgr.gray time, log.levelText entry.level,
      caller.text log.colored ++ utf8 " >", log.messageText entry]
    let fields := (ordered entry.fields).map fun (name, value) => log.field name value
    Bytes.join (utf8 " ") (parts.filter (!·.isEmpty) ++ fields) ++ [lineFeed]

end ConsoleLog

end Yurin
