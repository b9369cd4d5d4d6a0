import Yurin.Diagnostic.Format
import Yurin.EditorConfig.Selector
import Yurin.EditorConfig.Settings
import Yurin.Files.Tree

/-!
# Tab widths

The tab width of a file is set by the `.editorconfig` files in its directory and the directories
above, up to one that says it is the root. The nearest file and in it the last section about the
file counts, among those that set a width. Settings that cannot be understood set nothing at all.
-/

namespace Yurin

namespace Settings

/-- A value that stands for no value. -/
def unset : Bytes := utf8 "unset"

/-- A text with its letters made small. Of the letters beyond ASCII, a dotted capital I and the sign
of the kelvin give ASCII letters. -/
def small (text : Bytes) : Bytes :=
  (runes text).flatMap fun (rune, bytes) =>
    if rune == .valid 0x130 then utf8 "i"
    else if rune == .valid 0x212A then utf8 "k"
    else bytes.lower

/-- The longest name of a section that counts, in bytes. -/
def maxNameLength : Nat := 4096

/-- The longest key of a property, in bytes. -/
def maxKeyLength : Nat := 1024

/-- The longest value of a property, in bytes. -/
def maxValueLength : Nat := 4096

/-- The value of a property of a section: of a key in capitals or not, if neither is too long. -/
def property? (part : Section) (key : String) : Option Bytes :=
  (part.keys.find? fun (name, value) =>
    small name == utf8 key && name.length ≤ maxKeyLength && value.length ≤ maxValueLength).map (·.2)

/-- Whether a property with a numeric value has one or is unset. -/
def isNumeric (part : Section) (key : String) : Bool :=
  match property? part key with
  | none => true
  | some value => value == unset || (decimalInteger value).toOption.isSome

/-- The texts that stand for yes or no. -/
def truthTexts : List String :=
  ["1", "t", "T", "TRUE", "true", "True", "0", "f", "F", "FALSE", "false", "False"]

/-- Whether a property with a yes or no has one or is unset. -/
def isTruth (part : Section) (key : String) : Bool :=
  match property? part key with
  | none => true
  | some value => value == unset || truthTexts.any fun t => utf8 t == value

/-- Whether the properties of a section can be understood. -/
def isSound (part : Section) : Bool :=
  isNumeric part "tab_width" && isTruth part "trim_trailing_whitespace"
    && isTruth part "insert_final_newline"

/-- The sections about files. -/
def fileSections (s : Settings) : List Section :=
  s.filter fun part => part.name != defaultName && part.name.length ≤ maxNameLength

/-- The value of a key in a section or in those that it takes keys from, with its references
replaced. -/
def text? (s : Settings) (key : Bytes) (part : Section) : Option Bytes :=
  (s.lookup? key part.name.length part.name).map fun (owner, value) => s.resolve owner key value

/-- The key that says whether settings are the root. -/
def rootKey : Bytes := utf8 "root"

/-- The settings with the letters of the root key's value made small; where there is no such key, it
is empty. -/
def withRoot (s : Settings) : Settings :=
  s.set defaultName rootKey (((s.lookup? rootKey 0 defaultName).map (small ·.2)).getD [])

/-- The texts by which settings say that they are the root. -/
def rootTexts : List String :=
  ["1", "t", "T", "true", "TRUE", "True", "YES", "yes", "Yes", "y", "ON", "on", "On"]

/-- Whether settings say that they are the root. -/
def isRoot (s : Settings) : Bool :=
  match (s.section? defaultName).bind (s.text? rootKey) with
  | some value => rootTexts.any fun t => utf8 t == value
  | none => false

/-- The width that a section sets: its tab width, or else a numeric indent size. -/
def width? (s : Settings) (part : Section) : Option Nat :=
  let positive (value : Option Bytes) : Option Nat :=
    value.bind fun text => match decimalInteger text with
      | .ok n => if 0 < n then some n.toNat else none
      | .error _ => none
  (positive (property? part "tab_width")).or
    (positive (s.text? (utf8 "indent_size") part))

/-- The width that settings set for a file, if they can be understood. -/
def widthFor (s : Settings) (name : Bytes) : Option (Option Nat) := do
  let selected ← s.fileSections.filterM fun part => selects? part.name name
  if s.fileSections.all isSound then return selected.reverse.findSome? s.width? else none

end Settings

/-- The places of settings for a file, the nearest first, each with the name of the file from there.
-/
def settingsPlaces (parts : List Bytes) : List (Bytes × Bytes) :=
  (List.range parts.length).reverse.map fun depth =>
    (Path.ofElements false (parts.take depth ++ [utf8 ".editorconfig"]),
     Path.ofElements true (parts.drop depth))

/-- The first width among settings at some places, up to a root. -/
def firstWidth (tree : FileTree) : (found : Option Nat) → List (Bytes × Bytes) → Nat
  | found, [] => found.getD defaultTabWidth
  | found, (place, name) :: rest =>
    match tree.read place with
    | .error e => if e.fault = .missing then firstWidth tree found rest else defaultTabWidth
    | .ok text =>
      let settings := (Settings.parse text).map Settings.withRoot
      match settings.bind fun s => (s.widthFor name).map fun width => (s, width) with
      | none => defaultTabWidth
      | some (s, width) =>
        let found := found.or width
        if s.isRoot then found.getD defaultTabWidth else firstWidth tree found rest

/-- The tab width of a file in a tree. A file outside of the tree has the default. -/
def tabWidthFor (tree : FileTree) (filename : Bytes) : Nat :=
  let parts := Path.cleanElements filename
  if filename.isEmpty || Path.isRooted filename || parts.head? == some Path.above then
    defaultTabWidth
  else firstWidth tree none (settingsPlaces parts)

end Yurin
