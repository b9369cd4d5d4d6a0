import Yurin.Proofs.Token.Pieces
import Yurin.Skeleton.Basic

/-!
# Skeletons as source text

`Package.source` writes a skeleton as a source: the package line, and then the declarations, one on
a line. Modifiers are written as their words, types as `TypeReference.text`, receivers in
parentheses, and members between braces. `Package.isWritable` says which skeletons can be written:
all names in them have to be names.
-/

namespace Yurin.Skeleton

open Lexer (isName)

/-! ## The text -/

/-- The words of modifiers, with a blank after each. -/
def modifiersText (modifiers : List Modifier) : Bytes :=
  modifiers.flatMap fun m => utf8 m.keyword.spelling ++ utf8 " "

/-- The word of a flavor, with a blank after it. -/
def Flavor.text : Flavor → Bytes
  | .none => []
  | .value => utf8 "val "
  | .reference => utf8 "ref "

/-- Texts with commas between them. -/
def commaText (items : List Bytes) : Bytes := Bytes.join (utf8 ", ") items

/-- Type parameters, if there are any. -/
def genericsText (names : List Bytes) : Bytes :=
  if names.isEmpty then [] else utf8 "<" ++ commaText names ++ utf8 ">"

/-- A value parameter. -/
def Parameter.text (p : Parameter) : Bytes := p.name ++ utf8 " : " ++ p.type.text

/-- Value parameters in parentheses. -/
def parametersText (parameters : List Parameter) : Bytes :=
  utf8 "(" ++ commaText (parameters.map Parameter.text) ++ utf8 ")"

/-- Types after a mark, if there are any. -/
def typesText (mark : Mark) (types : List TypeReference) : Bytes :=
  if types.isEmpty then []
  else utf8 " " ++ utf8 mark.spelling ++ utf8 " " ++ commaText (types.map TypeReference.text)

/-- A receiver in parentheses, with the dot after it. -/
def receiverText : Option TypeReference → Bytes
  | none => []
  | some type => utf8 "(" ++ type.text ++ utf8 ")."

/-- The lines of members between braces; no members have no braces. -/
def bodyText (lines : Bytes) : Bytes :=
  if lines.isEmpty then [] else utf8 " \x7b\n" ++ lines ++ utf8 "\x7d"

mutual

/-- A declaration as a source, without the end of its line. -/
def Declaration.source : Declaration → Bytes
  | .data modifiers flavor name generics parameters bindings members =>
    modifiersText modifiers ++ flavor.text ++ utf8 "data " ++ name ++ genericsText generics
      ++ (if parameters.isEmpty then [] else parametersText parameters)
      ++ typesText .colon bindings ++ bodyText (linesSource members)
  | .trait modifiers name generics inherits members =>
    modifiersText modifiers ++ utf8 "trait " ++ name ++ genericsText generics
      ++ typesText .colon inherits ++ bodyText (linesSource members)
  | .typealias modifiers name generics expanded =>
    modifiersText modifiers ++ utf8 "typealias " ++ name ++ genericsText generics
      ++ typesText .eq [expanded]
  | .effect modifiers name generics =>
    modifiersText modifiers ++ utf8 "effect " ++ name ++ genericsText generics
  | .impl modifiers dataType traitType members =>
    modifiersText modifiers ++ utf8 "impl " ++ dataType.text ++ typesText .colon [traitType]
      ++ bodyText (linesSource members)
  | .function modifiers receiver name generics parameters returns effects =>
    modifiersText modifiers ++ utf8 "fun "
      ++ (if generics.isEmpty then [] else genericsText generics ++ utf8 " ")
      ++ receiverText receiver ++ name ++ parametersText parameters
      ++ typesText .colon returns.toList ++ typesText .divide effects
  | .property modifiers writable receiver name generics type effects =>
    modifiersText modifiers ++ utf8 (if writable then "var " else "val ")
      ++ (if generics.isEmpty then [] else genericsText generics ++ utf8 " ")
      ++ receiverText receiver ++ name ++ typesText .colon type.toList ++ typesText .divide effects

/-- Declarations as lines of a source. -/
def linesSource : List Declaration → Bytes
  | [] => []
  | d :: rest => d.source ++ utf8 "\n" ++ linesSource rest

end

/-- **A skeleton as a source.** -/
def Package.source (p : Package) : Bytes :=
  (if p.nameParts.isEmpty then []
    else utf8 "package " ++ Bytes.join (utf8 ".") p.nameParts ++ utf8 "\n")
    ++ linesSource p.declarations

/-! ## Which skeletons can be written -/

mutual

/-- Whether a type can be written: its segments are names, and there is at least one. -/
def TypeReference.isWritable : TypeReference → Bool
  | .regular _ segments arguments _ =>
    !segments.isEmpty && segments.all isName && areWritable arguments
  | .dynamic | .nothing => true

/-- Whether types can be written. -/
def areWritable : List TypeReference → Bool
  | [] => true
  | t :: rest => t.isWritable && areWritable rest

end

theorem areWritable_iff (types : List TypeReference) :
    areWritable types = true ↔ ∀ t ∈ types, t.isWritable = true := by
  induction types with
  | nil => simp [areWritable]
  | cons t rest ih => simp [areWritable, ih]

/-- Whether a value parameter can be written. -/
def Parameter.isWritable (p : Parameter) : Bool := isName p.name && p.type.isWritable

mutual

/-- Whether a declaration can be written. -/
def Declaration.isWritable : Declaration → Bool
  | .data _ _ name generics parameters bindings members =>
    isName name && generics.all isName && parameters.all Parameter.isWritable
      && areWritable bindings && membersWritable members
  | .trait _ name generics inherits members =>
    isName name && generics.all isName && areWritable inherits && membersWritable members
  | .typealias _ name generics expanded =>
    isName name && generics.all isName && expanded.isWritable
  | .effect _ name generics => isName name && generics.all isName
  | .impl _ dataType traitType members =>
    dataType.isWritable && traitType.isWritable && membersWritable members
  | .function _ receiver name generics parameters returns effects =>
    areWritable receiver.toList && isName name && generics.all isName
      && parameters.all Parameter.isWritable && areWritable returns.toList && areWritable effects
  | .property _ _ receiver name generics type effects =>
    areWritable receiver.toList && isName name && generics.all isName && areWritable type.toList
      && areWritable effects

/-- Whether declarations can be written. -/
def membersWritable : List Declaration → Bool
  | [] => true
  | d :: rest => d.isWritable && membersWritable rest

end

theorem membersWritable_iff (ds : List Declaration) :
    membersWritable ds = true ↔ ∀ d ∈ ds, d.isWritable = true := by
  induction ds with
  | nil => simp [membersWritable]
  | cons d rest ih => simp [membersWritable, ih]

/-- Whether a skeleton can be written. -/
def Package.isWritable (p : Package) : Bool :=
  p.nameParts.all isName && membersWritable p.declarations

end Yurin.Skeleton
