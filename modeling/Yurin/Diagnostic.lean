import Yurin.Parser
import Yurin.Position
import Yurin.Style.Theme

/-!
# Diagnostics

A diagnostic is a syntax error as users see it: a byte range of the source, the place where it was
reported, and a message. `Collector` turns reports into diagnostics in the order in which they come,
and underlines them in the source.
-/

namespace Yurin

/-- How serious a diagnostic is. -/
inductive Severity
  | error | warning | info | hint
  deriving DecidableEq, Repr

namespace Severity

/-- The name of a severity. -/
def name : Severity → String
  | .error => "error"
  | .warning => "warning"
  | .info => "info"
  | .hint => "hint"

/-- The severity with a name; any other name counts as an error. -/
def ofName (name : Bytes) : Severity :=
  if name = utf8 "warning" then .warning
  else if name = utf8 "info" then .info
  else if name = utf8 "hint" then .hint
  else .error

end Severity

/-- A message about the bytes `[start, stop)` of a source, reported at a line from one and a column
from zero. -/
structure Diagnostic where
  start : Int
  stop : Int
  line : Int
  column : Int
  message : Bytes
  severity : Severity
  deriving DecidableEq, Repr

/-- The diagnostics of one file, with the text that their offsets point into. -/
structure Report where
  filename : Bytes
  source : Bytes
  errors : List Diagnostic

/-- The diagnostic of an error reported at a place. It ends where the offending token ends, or
after one byte when there is no token or the token ends before. -/
def Diagnostic.at (index : LineIndex) (line column : Int) (message : Bytes)
    (offending : Option Token) : Diagnostic :=
  let start : Int := index.offset line column
  let stop := match offending with
    | some t => if t.stop > start then t.stop else start + 1
    | none => start + 1
  ⟨start, stop, line, column, message, .error⟩

/-- The diagnostics of a source, in the order of the reports. -/
structure Collector where
  source : Bytes
  index : LineIndex
  diagnostics : List Diagnostic

namespace Collector

/-- The collector of a source, before any report. -/
def start (source : Bytes) : Collector := ⟨source, .ofText source, []⟩

/-- The collector after one more report. -/
def report (c : Collector) (line column : Int) (message : Bytes) (offending : Option Token) :
    Collector :=
  { c with diagnostics := c.diagnostics ++ [.at c.index line column message offending] }

/-- The collector of a source after the complaints of its parse. -/
def ofComplaints (source : Bytes) (complaints : List Complaint) : Collector :=
  let index := LineIndex.ofText source
  ⟨source, index, complaints.map fun c =>
    .at index c.offending.line c.offending.column c.message (some c.offending)⟩

/-- The diagnostics under the name of a file. -/
def toReport (c : Collector) (filename : Bytes) : Report := ⟨filename, c.source, c.diagnostics⟩

end Collector

/-- The last character of a text, given by its range, if the text has one. -/
def lastRune? (text : Bytes) : Option (Nat × Nat) :=
  (runes text).getLast?.map fun (_, bytes) => (text.length - bytes.length, text.length)

/-- The range to underline for a diagnostic: its own, moved into the source. At the end of the
source it is the last character that is not blank. -/
def underlineRange? (source : Bytes) (d : Diagnostic) : Option (Int × Int) :=
  let size : Int := source.length
  let start := max d.start 0
  if size ≤ start then
    (lastRune? source.trimEnd).map fun (first, last) =>
      (first, min (max (last : Int) (first + 1)) size)
  else some (start, min (max d.stop (start + 1)) size)

/-- The underlines of diagnostics in a source. -/
def errorHighlights (theme : Theme) (source : Bytes) (diagnostics : List Diagnostic) :
    List Highlight :=
  diagnostics.filterMap fun d =>
    (underlineRange? source d).bind fun (start, stop) => theme.highlight? start stop .error

/-- The diagnostics of a source. -/
def diagnose (source : Bytes) : List Diagnostic :=
  (Collector.ofComplaints source (parse source).complaints).diagnostics

end Yurin
