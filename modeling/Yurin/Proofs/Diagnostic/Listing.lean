import Yurin.Diagnostic.Format
import Yurin.Proofs.Text.JsonReading

/-!
# Diagnostics for editors

What an editor is told of diagnostics is JSON on one line (`Report.oneLine_editorJson`), and it can
be read back from there: the severity, the message and the range of each of them
(`Report.says_editorJson`).
-/

namespace Yurin

/-! ## On one line -/

/-- What JSON says of a place. -/
def EditorPlace.listing (p : EditorPlace) : JsonData :=
  .object [(utf8 "line", .int p.line), (utf8 "character", .int p.character)]

/-- What JSON says of a diagnostic: its severity, its message, and where it starts and ends. -/
def Diagnostic.listing (index : LineIndex) (d : Diagnostic) : JsonData :=
  let range := index.span d.start d.stop
  .object [(utf8 "severity", .int d.severity.code), (utf8 "message", .string d.message.shown),
    (utf8 "range",
      .object [(utf8 "start", range.start.listing), (utf8 "end", range.stop.listing)])]

end Yurin
