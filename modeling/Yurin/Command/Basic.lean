import Yurin.Command.Flags
import Yurin.Engine
import Yurin.Files.Find
import Yurin.Output
import Yurin.Style.ThemeFile
import Yurin.Terminal.ColorMode
import Yurin.Terminal.Paint

/-!
# Commands

A command reads files of a tree and writes to its output. What it needs from outside is in
`Surroundings`; how it can fail is in `CommandError`.
-/

namespace Yurin

/-- What a command runs in. -/
structure Surroundings where
  tree : FileTree
  /-- Whether the output is a terminal. -/
  terminal : Bool
  /-- Whether nobody waits for the result any more. -/
  cancelled : Bool

/-- How long the engine may go on. -/
def Surroundings.patience (s : Surroundings) : Patience := if s.cancelled then some 0 else none

/-- What a check found: how many errors, in how many of how many files. -/
structure SyntaxSummary where
  errors : Nat
  failing : Nat
  files : Nat
  deriving DecidableEq, Repr

/-- The text of a summary. -/
def SyntaxSummary.message (s : SyntaxSummary) : Bytes :=
  utf8 "syntax errors found: " ++ natText s.errors
    ++ utf8 " in " ++ natText s.failing ++ utf8 " of "
    ++ natText s.files ++ utf8 " files"

/-- Why a command failed. -/
inductive CommandError
  | flags (error : FlagError)
  | tooFewArguments
  | wrongArguments (count : Nat)
  | unknownFormat (format : Bytes) (wanted : String)
  | unknownColorMode (error : UnknownColorMode)
  | noTheme (error : ThemeFileError)
  | notFound (error : FindError)
  | unreadable (path : Bytes) (error : ReadError)
  /-- The engine gave no result while the command was busy with a file. -/
  | engine (doing : Bytes) (error : EngineError)
  /-- The output refused a write. -/
  | refused (message : Bytes)
  /-- Files that could not be read, and the errors in the others, if any. -/
  | checked (failures : List (Bytes × ReadError)) (summary : Option SyntaxSummary)
  deriving DecidableEq, Repr

namespace CommandError

/-- The text of a failed read. -/
def readMessage (path : Bytes) (error : ReadError) : Bytes :=
  utf8 "reading " ++ path ++ utf8 ": " ++ error.message

/-- The text of a command error. -/
def message : CommandError → Bytes
  | .flags e => e.message
  | .tooFewArguments => utf8 "requires at least 1 arg(s), only received 0"
  | .wrongArguments count => utf8 "accepts 1 arg(s), received " ++ natText count
  | .unknownFormat format wanted =>
    utf8 "unknown format " ++ quoted format ++ utf8 " (want " ++ utf8 wanted ++ utf8 ")"
  | .unknownColorMode e => e.message
  | .noTheme e => e.message
  | .notFound e => e.message
  | .unreadable path e => readMessage path e
  | .engine doing e => doing ++ utf8 ": " ++ e.message
  | .refused message => message
  | .checked failures summary =>
    Bytes.join (utf8 "; ") ((failures.map fun (path, e) => readMessage path e)
      ++ (summary.map SyntaxSummary.message).toList)

end CommandError

/-- Goes on with a result, or fails. -/
def Output.ofExcept (result : Except ε α) (next : α → Output ε) : Output ε :=
  match result with
  | .error e => .fail e
  | .ok a => next a

/-- A file of a tree. -/
def readFile (tree : FileTree) (path : Bytes) : Except CommandError Bytes :=
  (tree.read path).mapError (.unreadable path)

/-- The result of the engine for a file, as far as the caller waits for it. -/
def ask (s : Surroundings) (engine : Engine Bytes) (doing : Bytes) (call : Call Bytes α) :
    Except CommandError α :=
  (engine.eval s.patience call).mapError (.engine doing)

/-- One write, whose refusal is told after what the command was doing. -/
def writeDoing (doing bytes : Bytes) : Output CommandError :=
  .write (.refused (doing ++ utf8 ": " ++ refusedWrite)) bytes

/-- The only argument of a command that takes one. -/
def onlyArgument (arguments : List Bytes) : Except CommandError Bytes :=
  match arguments with
  | [argument] => .ok argument
  | _ => .error (.wrongArguments arguments.length)

/-- The arguments of a command that takes one or more. -/
def someArguments (arguments : List Bytes) : Except CommandError (List Bytes) :=
  if arguments.isEmpty then .error .tooFewArguments else .ok arguments

end Yurin
