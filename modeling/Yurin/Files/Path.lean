import Yurin.Text.Ascii
import Yurin.Text.Bytes

/-!
# Path names

Path names are texts with slashes between their elements. `clean` is the shortest name of the same
place as far as the name alone tells: no empty element, no `.`, and `..` only at the start.
-/

namespace Yurin.Path

/-- The slash between elements. -/
def slash : UInt8 := Ascii.slash

/-- The element that names the directory it stands in. -/
def here : Bytes := utf8 "."

/-- The element that names the directory above. -/
def above : Bytes := utf8 ".."

/-- Whether a name starts at the root. -/
def isRooted (path : Bytes) : Bool := path.head? == some slash

/-- The elements of a name, the empty ones included. -/
def elements (path : Bytes) : List Bytes := path.splitOn slash

/-- Adds an element to those of a clean name. -/
def push (rooted : Bool) (parts : List Bytes) (element : Bytes) : List Bytes :=
  if element.isEmpty || element == here then parts
  else if element == above then
    match parts.getLast? with
    | none => if rooted then [] else [above]
    | some last => if last == above then parts ++ [above] else parts.dropLast
  else parts ++ [element]

/-- The elements of the clean name. -/
def cleanElements (path : Bytes) : List Bytes :=
  (elements path).foldl (push (isRooted path)) []

/-- A name from elements. -/
def ofElements (rooted : Bool) (parts : List Bytes) : Bytes :=
  let text := Bytes.join [slash] parts
  if rooted then slash :: text else if parts.isEmpty then here else text

/-- The shortest name of the same place. -/
def clean (path : Bytes) : Bytes := ofElements (isRooted path) (cleanElements path)

/-- The clean name of some names one below the other; empty ones do not count. -/
def join (paths : List Bytes) : Bytes :=
  match paths.filter (!·.isEmpty) with
  | [] => []
  | paths => clean (Bytes.join [slash] paths)

/-- The extension of a name: the end of its last element from the last period on. -/
def extension (path : Bytes) : Bytes :=
  match Bytes.cutLast? Ascii.period ((elements path).getLast?.getD []) with
  | some (_, rest) => Ascii.period :: rest
  | none => []

end Yurin.Path
