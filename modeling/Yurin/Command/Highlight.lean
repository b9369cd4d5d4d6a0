import Yurin.Command.Basic
import Yurin.Text.Json

/-!
# The highlight command

Prints files with their highlights: as text with terminal escapes, or as a line of JSON for each
file.
-/

namespace Yurin

/-- A highlight as JSON. -/
def Highlight.json (h : Highlight) : JsonValue :=
  .object [("start", .int h.start), ("end", .int h.stop),
    ("category", .string (utf8 h.category.name))]

/-- A diagnostic as JSON. -/
def Diagnostic.json (d : Diagnostic) : JsonValue :=
  .object [("start", .int d.start), ("end", .int d.stop), ("line", .int d.line),
    ("column", .int d.column), ("message", .string d.message),
    ("severity", .string (utf8 d.severity.name))]

namespace HighlightCommand

/-- The flags of the command. -/
def flags : List Flag := [⟨"theme", .text⟩, ⟨"format", .text⟩, ⟨"color", .text⟩]

/-- How files are printed. -/
inductive Format
  | ansi (colored : Bool)
  | json
  deriving DecidableEq, Repr

/-- The line of JSON of a file. -/
def jsonLine (path : Bytes) (highlights : List Highlight) (diagnostics : List Diagnostic) : Bytes :=
  (JsonValue.object [("file", .string path), ("highlights", .array (highlights.map Highlight.json)),
    ("diagnostics", .array (diagnostics.map Diagnostic.json))]).compact ++ [lineFeed]

/-- The output of one file. -/
def printFile (s : Surroundings) (theme : Theme) (format : Format) (path : Bytes) :
    Output CommandError :=
  let engine := Engine.create theme 0
  .ofExcept (readFile s.tree path) fun source =>
    .ofExcept (ask s engine (utf8 "highlighting " ++ path) (engine.highlight source))
      fun (highlights, diagnostics) =>
        match format with
        | .ansi colored => (ansiOutput source highlights colored).mapFailure .refused
        | .json => writeDoing (utf8 "encoding " ++ path) (jsonLine path highlights diagnostics)

/-- The format that the flags choose. The color mode is looked at first. -/
def formatOf (s : Surroundings) (line : CommandLine) : Except CommandError Format := do
  let mode ← (ColorMode.parse (line.textOf "color" "auto")).mapError .unknownColorMode
  let format := line.textOf "format" "ansi"
  if format = utf8 "ansi" then return .ansi (mode.enabled s.terminal)
  else if format = utf8 "json" then return .json
  else throw (.unknownFormat format "ansi or json")

/-- The theme that the flags choose. -/
def themeOf (s : Surroundings) (line : CommandLine) : Except CommandError Theme :=
  let path := line.textOf "theme" ""
  if path.isEmpty then .ok .default else (loadTheme s.tree path).mapError .noTheme

/-- Runs the command: the files in order, up to one that fails. -/
def run (s : Surroundings) (line : CommandLine) : Output CommandError :=
  .ofExcept (someArguments line.arguments) fun files =>
    .ofExcept (formatOf s line) fun format =>
      .ofExcept (themeOf s line) fun theme =>
        .all (files.map (printFile s theme format))

end HighlightCommand

end Yurin
