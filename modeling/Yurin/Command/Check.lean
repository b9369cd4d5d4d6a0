import Yurin.Command.Basic
import Yurin.EditorConfig

/-!
# The check command

Reports the syntax errors of files. The files are checked by jobs that finish in any order
(`Progress.finish`); the reports are printed in the order of the files all the same. A file that
cannot be read is a failure of its own and leaves no report.
-/

namespace Yurin

/-- How the job of a file ends. -/
inductive JobResult
  | report (report : Report)
  | unreadable (error : ReadError)
  | abandoned (error : EngineError)

/-- What jobs have left behind. -/
structure Progress where
  /-- The report of each file, once there is one. -/
  reports : List (Option Report)
  /-- The files that could not be read, in the order of their jobs. -/
  unreadable : List (Bytes × ReadError)
  /-- The first job that was abandoned. -/
  abandoned : Option (Bytes × EngineError)

namespace Progress

/-- Before any job has finished. -/
def start (files : List Bytes) : Progress := ⟨files.map fun _ => none, [], none⟩

/-- After the job of the file at a position has finished. -/
def finish (files : List Bytes) (job : Bytes → JobResult) (p : Progress) (position : Nat) :
    Progress :=
  match files[position]? with
  | none => p
  | some path =>
    match job path with
    | .report report => { p with reports := p.reports.set position (some report) }
    | .unreadable error => { p with unreadable := p.unreadable ++ [(path, error)] }
    | .abandoned error => { p with abandoned := p.abandoned.or (some (path, error)) }

/-- After all jobs, which finish in the given order. -/
def after (files : List Bytes) (job : Bytes → JobResult) (order : List Nat) : Progress :=
  order.foldl (finish files job) (start files)

end Progress

namespace CheckCommand

/-- The flags of the command. -/
def flags : List Flag := [⟨"format", .text⟩, ⟨"color", .text⟩, ⟨"jobs", .number⟩]

/-- How reports are printed. -/
inductive Format
  | text | json
  deriving DecidableEq, Repr

/-- Checks a file. -/
def check (s : Surroundings) (path : Bytes) : JobResult :=
  match s.tree.read path with
  | .error e => .unreadable e
  | .ok source =>
    let engine := Engine.create .default 0
    match engine.eval s.patience (engine.diagnostics source) with
    | .ok errors => .report ⟨path, source, errors⟩
    | .error e => .abandoned e

/-- A report as JSON: the file and what was found there. -/
def reportJson (r : Report) : JsonValue :=
  .object [("file", .string r.filename), ("diagnostics", r.editorJson)]

/-- The output of one report. In text, a file without errors is passed over. -/
def printReport (tree : FileTree) (format : Format) (colored : Bool) (r : Report) :
    Output CommandError :=
  match format with
  | .text =>
    if r.errors.isEmpty then .nothing
    else writeDoing (utf8 "writing") (r.text (tabWidthFor tree r.filename) colored)
  | .json => writeDoing (utf8 "writing") ((reportJson r).compact ++ [lineFeed])

/-- The summary of some reports out of a number of files, if they have errors. -/
def summarize (reports : List Report) (files : Nat) : Option SyntaxSummary :=
  let errors := total (reports.map (·.errors.length))
  if errors = 0 then none
  else some ⟨errors, reports.countP (!·.errors.isEmpty), files⟩

/-- The failure that a check ends with, if any. -/
def outcome (unreadable : List (Bytes × ReadError)) (summary : Option SyntaxSummary) :
    Option CommandError :=
  if unreadable.isEmpty && summary.isNone then none else some (.checked unreadable summary)

/-- The output of what the jobs of some files left behind. -/
def printProgress (tree : FileTree) (format : Format) (colored : Bool) (files : Nat)
    (p : Progress) : Output CommandError :=
  match p.abandoned with
  | some (path, e) => .fail (.engine (utf8 "checking " ++ path) e)
  | none =>
    let reports := p.reports.filterMap id
    (Output.all (reports.map (printReport tree format colored))).andThen
      ⟨[], outcome p.unreadable (summarize reports files)⟩

/-- Checks some files with jobs that finish in the given order. -/
def checkFiles (s : Surroundings) (format : Format) (colored : Bool) (order : List Nat)
    (files : List Bytes) : Output CommandError :=
  printProgress s.tree format colored files.length (Progress.after files (check s) order)

/-- The format that the flags choose, and whether there are colors. The format is looked at first.
-/
def formatOf (s : Surroundings) (line : CommandLine) : Except CommandError (Format × Bool) := do
  let text := line.textOf "format" "text"
  let format ←
    if text = utf8 "text" then .ok Format.text
    else if text = utf8 "json" then .ok Format.json
    else .error (.unknownFormat text "text or json")
  let mode ← (ColorMode.parse (line.textOf "color" "auto")).mapError .unknownColorMode
  return (format, mode.enabled s.terminal)

/-- Checks the files that patterns stand for, with jobs whose order may depend on the files. -/
def checkPatterns (expand : Bytes → Except FindError (List Bytes)) (order : List Bytes → List Nat)
    (s : Surroundings) (line : CommandLine) (patterns : List Bytes) : Output CommandError :=
  .ofExcept (formatOf s line) fun (format, colored) =>
    .ofExcept ((findWith expand patterns).mapError .notFound) fun files =>
      checkFiles s format colored (order files) files

/-- Runs the command with jobs whose order may depend on the files. -/
def runWith (expand : Bytes → Except FindError (List Bytes)) (order : List Bytes → List Nat)
    (s : Surroundings) (line : CommandLine) : Output CommandError :=
  .ofExcept (someArguments line.arguments) (checkPatterns expand order s line)

/-- Runs the command with jobs that finish in the order of the files. -/
def run (s : Surroundings) (line : CommandLine) : Output CommandError :=
  runWith (Finder.ofTree s.tree).expand (fun files => List.range files.length) s line

end CheckCommand

end Yurin
