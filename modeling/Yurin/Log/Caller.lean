import Yurin.Terminal.Sgr
import Yurin.Text.Ascii

/-!
# Callers in log lines

A log line names the place that wrote it: a package, a file and a line. The package is read off the
full name of the function, such as `site/tool/part.(*Engine).Run`: everything before the first
period of the last path element.
-/

namespace Yurin

/-- The package and the function in the full name of a function. A name without a period after its
last slash is a package. A period with an opening parenthesis in the package belongs to the
function, as far as the next one. -/
def splitFunctionName (name : Bytes) : Bytes × Bytes :=
  let (path, last) := match Bytes.cutLast? Ascii.slash name with
    | some (path, last) => (path ++ [Ascii.slash], last)
    | none => ([], name)
  match Bytes.cut? Ascii.period last with
  | none => (name, [])
  | some (before, function) =>
    let package := path ++ before
    match Bytes.cutAt? (utf8 ".(") package with
    | none => (package, function)
    | some (package, rest) =>
      let receiver := match Bytes.cutAt? (utf8 ".(") rest with
        | some (receiver, _) => receiver
        | none => rest
      (package, utf8 "(" ++ receiver ++ utf8 "." ++ function)

/-- What follows the last slash of a path. -/
def fileNameOf (path : Bytes) : Bytes :=
  match Bytes.cutLast? Ascii.slash path with
  | some (_, name) => name
  | none => path

/-- The place that wrote a log line; the line number is a text. -/
structure Caller where
  package : Bytes
  path : Bytes
  line : Bytes
  deriving DecidableEq, Repr

/-- A caller as package, file name and line with colons between them. -/
def Caller.text (c : Caller) (colored : Bool) : Bytes :=
  let colon := Sgr.wrapIf colored [Sgr.faint] (utf8 ":")
  c.package ++ colon ++ Sgr.wrapIf colored [Sgr.bold] (fileNameOf c.path) ++ colon
    ++ Sgr.wrapIf colored [Sgr.brightRed, Sgr.bold] c.line

end Yurin
