import Yurin.Diagnostic
import Yurin.Terminal.Sgr
import Yurin.Text.Grapheme
import Yurin.Text.Json

/-!
# Formatting diagnostics

For an editor, diagnostics are a JSON array with ranges from zero. For people each one is three
lines: place and message, the source line with its tabs expanded, and carets below the range. A
cluster is one column wide, and a tab reaches to the next multiple of the tab width. What is a
cluster is a parameter (`Segmenter`); reports have grapheme clusters.
-/

namespace Yurin

/-! ## For editors -/

/-- The number of a severity for editors. -/
def Severity.code : Severity → Int
  | .error => 1
  | .warning => 2
  | .info => 3
  | .hint => 4

/-- An editor place as JSON. -/
def EditorPlace.json (p : EditorPlace) : JsonValue :=
  .object [("line", .int p.line), ("character", .int p.character)]

/-- A diagnostic as JSON for editors. -/
def Diagnostic.editorJson (index : LineIndex) (d : Diagnostic) : JsonValue :=
  let range := index.span d.start d.stop
  .object [("severity", .int d.severity.code), ("message", .string d.message),
    ("range", .object [("start", range.start.json), ("end", range.stop.json)])]

/-- The diagnostics of a report as JSON for editors. -/
def Report.editorJson (r : Report) : JsonValue :=
  let index := LineIndex.ofText r.source
  .array (r.errors.map (Diagnostic.editorJson index))

/-! ## For people -/

/-- The tab width when nothing sets one. -/
def defaultTabWidth : Nat := 4

/-- A tab. -/
def tabByte : UInt8 := 9

/-- A way to cut texts into clusters. -/
abbrev Segmenter := Bytes → List Bytes

/-- How many columns a cluster at a column takes. -/
def clusterWidth (tab column : Nat) (cluster : Bytes) : Nat :=
  if cluster = [tabByte] then tab - column % tab else 1

/-- The column after clusters that begin at a column. -/
def columnAfter (tab column : Nat) (clusters : List Bytes) : Nat :=
  clusters.foldl (fun column cluster => column + clusterWidth tab column cluster) column

/-- The column after a text that begins at a column. -/
def displayColumn (segment : Segmenter) (tab column : Nat) (text : Bytes) : Nat :=
  columnAfter tab column (segment text)

/-- Clusters from a column on, with blanks in place of tabs. -/
def expandFrom (tab : Nat) : (column : Nat) → List Bytes → Bytes
  | _, [] => []
  | column, cluster :: rest =>
    let width := clusterWidth tab column cluster
    (if cluster = [tabByte] then List.replicate width 32 else cluster)
      ++ expandFrom tab (column + width) rest

/-- A text with blanks in place of tabs. A text without a tab is not cut into clusters. -/
def expandTabs (segment : Segmenter) (tab : Nat) (text : Bytes) : Bytes :=
  if text.contains tabByte then expandFrom tab 0 (segment text) else text

/-- The bytes `[start, stop)` of the line that a diagnostic starts in. -/
def Diagnostic.lineRange (index : LineIndex) (d : Diagnostic) : Nat × Nat :=
  index.lineBounds (index.lineColumn d.start).1

/-- The bytes `[start, stop)` to mark in a line of `size` bytes that begins at `lineStart`: those of
the diagnostic, moved into the line. -/
def Diagnostic.markedRange (lineStart size : Nat) (d : Diagnostic) : Nat × Nat :=
  let start := clampInto 0 size (d.start - lineStart)
  (start, min (max (d.stop - lineStart) start).toNat size)

/-- A diagnostic for people: place and message, the line, and carets. -/
def Diagnostic.text (segment : Segmenter) (source : Bytes) (index : LineIndex) (filename : Bytes)
    (tab : Nat) (colored : Bool) (d : Diagnostic) : Bytes :=
  let (lineStart, lineStop) := d.lineRange index
  let line := source.slice lineStart lineStop
  let (start, stop) := d.markedRange lineStart line.length
  let lead := displayColumn segment tab 0 (line.take start)
  let width := max (displayColumn segment tab lead (line.slice start stop) - lead) 1
  let place :=
    filename ++ utf8 ":" ++ intText d.line ++ utf8 ":" ++ intText (d.column + 1) ++ utf8 ":"
  Sgr.wrapIf colored [Sgr.bold] place ++ utf8 " " ++ d.message ++ [lineFeed]
    ++ expandTabs segment tab line ++ [lineFeed]
    ++ List.replicate lead 32
    ++ Sgr.wrapIf colored [Sgr.red, Sgr.bold] (List.replicate width 94) ++ [lineFeed]

/-- A report for people. A tab width of zero or less stands for the default. -/
def Report.text (r : Report) (tabWidth : Int) (colored : Bool) : Bytes :=
  let index := LineIndex.ofText r.source
  let tab := if tabWidth ≤ 0 then defaultTabWidth else tabWidth.toNat
  r.errors.flatMap (Diagnostic.text clusters r.source index r.filename tab colored)

/-! ## Formatters -/

/-- The two formats. -/
inductive Formatter
  | editor
  | people (tabWidth : Int) (colored : Bool)
  deriving DecidableEq, Repr

/-- Why nothing was formatted. -/
inductive FormatError
  | noReport
  deriving DecidableEq, Repr

/-- The text of a format error. -/
def FormatError.message : FormatError → Bytes
  | .noReport => utf8 "diagnostics is nil"

/-- Formats a report, if there is one. -/
def Formatter.format (f : Formatter) : Option Report → Except FormatError Bytes
  | none => .error .noReport
  | some r =>
    match f with
    | .editor => .ok r.editorJson.compact
    | .people tabWidth colored => .ok (r.text tabWidth colored)

end Yurin
