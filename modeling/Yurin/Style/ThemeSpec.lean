import Yurin.Style.Theme
import Yurin.Text.Distance

/-!
# Theme descriptions

A theme description lists styles by category name, as theme files do, and says whether they are laid
over the default theme. Turning it into a theme checks names and colors in order; a name that is
close to that of a category comes with a suggestion.
-/

namespace Yurin

/-- A style for a category, as it is described: empty colors are not set. -/
structure StyleEntry where
  name : Bytes
  color : Bytes
  bold : Bool
  italic : Bool
  underline : Bytes
  deriving DecidableEq, Repr

/-- A described theme. It starts from the default theme unless `inherits` says otherwise. -/
structure ThemeSpec where
  inherits : Option Bool
  entries : List StyleEntry
  deriving DecidableEq, Repr

/-- Why a description is not a theme. -/
inductive ThemeError
  | unknownCategory (name : Bytes) (suggestion : Option Category)
  | badColor (name : Bytes) (error : ColorError)
  deriving DecidableEq, Repr

namespace ThemeError

/-- The text of a theme error. -/
def message : ThemeError → Bytes
  | .unknownCategory name suggestion =>
    utf8 "theme style " ++ quoted name ++ utf8 ": " ++ (UnknownCategory.mk name).message
      ++ match suggestion with
        | some c => utf8 " (did you mean " ++ quoted (utf8 c.name) ++ utf8 "?)"
        | none => []
  | .badColor name error => utf8 "theme style " ++ quoted name ++ utf8 ": " ++ error.message

end ThemeError

/-- The first category whose name is nearest to a text, if it is less than four edits away. -/
def suggestCategory? (name : Bytes) : Option Category :=
  (Category.all.foldl (fun (best : Option Category × Nat) c =>
    let distance := editDistance name (utf8 c.name)
    if distance < best.2 then (some c, distance) else best) (none, 4)).1

namespace StyleEntry

/-- A described color; an empty one is not set. -/
def color? (entry : StyleEntry) (text : Bytes) : Except ThemeError Color :=
  if text.isEmpty then .ok .unset
  else (Color.parse text).mapError (.badColor entry.name)

/-- The category and the style that an entry describes. -/
def resolve (entry : StyleEntry) : Except ThemeError (Category × Style) :=
  match Category.parse entry.name with
  | .error _ => .error (.unknownCategory entry.name (suggestCategory? entry.name))
  | .ok category => do
    let color ← entry.color? entry.color
    let underline ← entry.color? entry.underline
    return (category, ⟨color, entry.bold, entry.italic, underline⟩)

end StyleEntry

/-- The theme that a description stands for; a later entry replaces an earlier one of its
category. -/
def ThemeSpec.theme (spec : ThemeSpec) : Except ThemeError Theme := do
  let base := if spec.inherits.getD true then Theme.default else Theme.empty
  spec.entries.foldlM (fun theme entry => do
    let (category, style) ← entry.resolve
    return theme.insert category style) base

end Yurin
