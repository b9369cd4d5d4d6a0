import Yurin.Document.Hcl
import Yurin.Document.Toml
import Yurin.Document.Yaml
import Yurin.Files.Tree
import Yurin.Style.ThemeSpec

/-!
# Theme files

A theme file describes a theme in YAML, TOML or HCL; its extension says in which. In HCL every style
is a block, and an attribute can refer to the colors of the default theme, as in `default.keyword`.
Fields that a theme does not have are refused.
-/

namespace Yurin

/-- The formats of theme files. -/
inductive ThemeFormat
  | yaml | toml | hcl
  deriving DecidableEq, Repr

/-- The format of a file with a name. -/
def ThemeFormat.ofName? (name : Bytes) : Option ThemeFormat :=
  let extension := (Path.extension name).lower
  if extension = utf8 ".yaml" || extension = utf8 ".yml" then some .yaml
  else if extension = utf8 ".toml" then some .toml
  else if extension = utf8 ".hcl" then some .hcl
  else none

/-- Why there is no theme in a file. -/
inductive ThemeFileError
  | unreadable (error : ReadError)
  | unsupported (extension : Bytes)
  | badYaml
  | badToml
  /-- The text is not HCL. -/
  | badHcl
  /-- The text is HCL, but does not describe a theme. -/
  | notThemeHcl
  | badTheme (error : ThemeError)
  deriving DecidableEq, Repr

/-- The text of a theme file error. -/
def ThemeFileError.message : ThemeFileError → Bytes
  | .unreadable e => utf8 "reading theme file: " ++ e.message
  | .unsupported extension =>
    utf8 "unsupported theme format " ++ quoted extension ++ utf8 ": want .hcl, .yaml, .yml or .toml"
  | .badYaml => utf8 "parsing YAML"
  | .badToml => utf8 "parsing TOML"
  | .badHcl => utf8 "parsing HCL"
  | .notThemeHcl => utf8 "decoding HCL"
  | .badTheme e => e.message

namespace ThemeSpec

/-! ## YAML and TOML -/

/-- How a format gives texts and truth values in fields; a field without a value is as if it were
not there. -/
structure FieldReader where
  text? : Document → Option Bytes
  truth? : Document → Option Bool
  /-- Names of fields as they are compared. -/
  fieldName : List Char → Bytes

/-- Fields in YAML: a bare word is a text wherever a text is wanted, and some words besides `true`
and `false` are truth values. -/
def yamlFields : FieldReader where
  text?
    | .text t => some (encodeChars t)
    | .word t => some (encodeChars t)
    | _ => none
  truth? d :=
    let old (t : List Char) : Option Bool :=
      if spells ["y", "Y", "yes", "on"] t then some true
      else if spells ["n", "N", "no", "off"] t then some false
      else none
    match d with
    | .word t =>
      if spells ["true", "True", "TRUE"] t then some true
      else if spells ["false", "False", "FALSE"] t then some false
      else old t
    | .text t => old t
    | _ => none
  fieldName := encodeChars

/-- Fields in TOML: texts are in quotes, and field names may be in capitals. -/
def tomlFields : FieldReader where
  text?
    | .text t => some (encodeChars t)
    | _ => none
  truth?
    | .word t =>
      if spells ["true"] t then some true else if spells ["false"] t then some false else none
    | _ => none
  fieldName name := (encodeChars name).lower

/-- The entry after one more field. -/
def entryField? (reader : FieldReader) (entry : StyleEntry) (field : List Char × Document) :
    Option StyleEntry :=
  let name := reader.fieldName field.1
  let text (set : Bytes → StyleEntry) : Option StyleEntry :=
    match field.2 with
    | .nothing => some entry
    | value => (reader.text? value).map set
  let truth (set : Bool → StyleEntry) : Option StyleEntry :=
    match field.2 with
    | .nothing => some entry
    | value => (reader.truth? value).map set
  if name = utf8 "name" then text fun t => { entry with name := t }
  else if name = utf8 "color" then text fun t => { entry with color := t }
  else if name = utf8 "underline" then text fun t => { entry with underline := t }
  else if name = utf8 "bold" then truth fun b => { entry with bold := b }
  else if name = utf8 "italic" then truth fun b => { entry with italic := b }
  else none

/-- The entry that sets nothing. -/
def emptyEntry : StyleEntry := ⟨[], [], false, false, []⟩

/-- Whether a document says something. -/
def isGiven : Document → Bool
  | .nothing => false
  | _ => true

/-- An entry from a record. -/
def styleEntryOf? (reader : FieldReader) : Document → Option StyleEntry
  | .record fields => fields.foldlM (entryField? reader) emptyEntry
  | _ => none

/-- The description after one more field. -/
def specField? (reader : FieldReader) (spec : ThemeSpec) (field : List Char × Document) :
    Option ThemeSpec :=
  let name := reader.fieldName field.1
  if name = utf8 "inherit" then
    match field.2 with
    | .nothing => some spec
    | value => (reader.truth? value).map fun b => { spec with inherits := some b }
  else if name = utf8 "styles" then
    match field.2 with
    | .nothing => some spec
    | .list items =>
      ((items.filter isGiven).mapM (styleEntryOf? reader)).map fun entries => { spec with entries }
    | _ => none
  else none

/-- The description in a document. -/
def ofDocument? (reader : FieldReader) : Document → Option ThemeSpec
  | .nothing => some ⟨none, []⟩
  | .record fields => fields.foldlM (specField? reader) ⟨none, []⟩
  | _ => none

/-! ## HCL -/

/-- The name of a category in references. -/
def referenceName (c : Category) : Bytes :=
  (utf8 c.name).map fun b => if b = Ascii.hyphen then Ascii.underscore else b

/-- The color of a category in the default theme, if it has one. -/
def defaultColor? (name : Bytes) : Option Bytes :=
  (Theme.default.styles.find? fun (c, s) => referenceName c == name && s.color.isSet).map
    fun (_, s) => s.color.text

/-- What a reference stands for: a color of the default theme. -/
def lookup? (names : List (List Char)) : Option Bytes :=
  match names with
  | [scope, name] => if spells ["default"] scope then defaultColor? (encodeChars name) else none
  | _ => none

/-- A truth value as a text. -/
def truthText (b : Bool) : Bytes := utf8 (if b then "true" else "false")

/-- A value that is one text or word as a text. -/
def plainText? : Hcl.Value → Option Bytes
  | .text t => some (encodeChars t)
  | .number t => some (encodeChars t)
  | .truth b => some (truthText b)
  | .reference names => lookup? names
  | _ => none

/-- An attribute as a text: the pieces of a string are put together. -/
def hclText? : Hcl.Value → Option Bytes
  | .template pieces => (pieces.mapM plainText?).map List.flatten
  | value => plainText? value

/-- An attribute as a truth value. -/
def hclTruth? : Hcl.Value → Option Bool
  | .truth b => some b
  | .number _ => none
  | value => do
    let text ← hclText? value
    if text = utf8 "true" || text = utf8 "1" then return true
    else if text = utf8 "false" || text = utf8 "0" then return false
    else none

/-- The entry after one more attribute. -/
def entryAttribute? (entry : StyleEntry) (a : Hcl.Attribute) : Option StyleEntry :=
  if spells ["color"] a.name then (hclText? a.value).map fun t => { entry with color := t }
  else if spells ["underline"] a.name then
    (hclText? a.value).map fun t => { entry with underline := t }
  else if spells ["bold"] a.name then (hclTruth? a.value).map fun b => { entry with bold := b }
  else if spells ["italic"] a.name then (hclTruth? a.value).map fun b => { entry with italic := b }
  else none

/-- An entry from a block. -/
def ofBlock? (b : Hcl.Block) : Option StyleEntry :=
  match b.labels with
  | [label] =>
    if spells ["style"] b.name && !b.nested then
      b.attributes.foldlM entryAttribute? { emptyEntry with name := encodeChars label }
    else none
  | _ => none

/-- Whether a file starts from the default theme, as its attributes say. -/
def inheritAttribute? (attributes : List Hcl.Attribute) : Option (Option Bool) :=
  match attributes with
  | [] => some none
  | [a] =>
    if spells ["inherit"] a.name then
      match a.value with
      | .null => some none
      | value => (hclTruth? value).map some
    else none
  | _ => none

/-- The description in an HCL file. -/
def ofBody? (b : Hcl.Body) : Option ThemeSpec := do
  return ⟨← inheritAttribute? b.attributes, ← b.blocks.mapM ofBlock?⟩

/-! ## Files -/

/-- The description in a file with a name and a content. -/
def ofFile (name content : Bytes) : Except ThemeFileError ThemeSpec :=
  match ThemeFormat.ofName? name with
  | none => .error (.unsupported (Path.extension name))
  | some .yaml =>
    match (Yaml.parse? content).bind (ofDocument? yamlFields) with
    | some spec => .ok spec
    | none => .error .badYaml
  | some .toml =>
    match (Toml.parse? content).bind (ofDocument? tomlFields) with
    | some spec => .ok spec
    | none => .error .badToml
  | some .hcl =>
    match Hcl.parse? content with
    | none => .error .badHcl
    | some body =>
      match ofBody? body with
      | some spec => .ok spec
      | none => .error .notThemeHcl

end ThemeSpec

/-- The theme in a file of a tree. -/
def loadTheme (tree : FileTree) (path : Bytes) : Except ThemeFileError Theme :=
  match tree.read path with
  | .error e => .error (.unreadable e)
  | .ok content =>
    match ThemeSpec.ofFile path content with
    | .error e => .error e
    | .ok spec => spec.theme.mapError .badTheme

end Yurin
