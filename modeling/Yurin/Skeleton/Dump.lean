import Yurin.Skeleton.Basic

/-!
# The skeleton as an indented text

`dump` prints a symbol and everything in it, one field a line, each level indented by two blanks.
-/

namespace Yurin.Skeleton

/-- A text with every line moved two blanks to the right. -/
def indented (text : Bytes) : Bytes :=
  utf8 "  " ++ text.flatMap fun b => if b = lineFeed then utf8 "\n  " else [b]

/-- A record with its fields, one a line. -/
def record (name : String) (fields : List (String × Bytes)) : Bytes :=
  let lines := fields.map fun (field, value) => utf8 field ++ utf8 " = " ++ value
  utf8 name ++ utf8 "(\n" ++ indented (Bytes.join (utf8 "\n") lines) ++ utf8 "\n)"

/-- A list with its items, one below the other. -/
def listing (items : List Bytes) : Bytes :=
  if items.isEmpty then utf8 "[]"
  else utf8 "[\n" ++ indented (Bytes.join (utf8 "\n") items) ++ utf8 "\n]"

/-- A truth value. -/
def flagText (b : Bool) : Bytes := if b then utf8 "true" else utf8 "false"

/-- What is printed in place of an absent part. -/
def absent : Bytes := utf8 "<none>"

mutual

/-- The dump of a type reference. -/
def TypeReference.dump : TypeReference → Bytes
  | .dynamic => utf8 "Type.Dynamic"
  | .nothing => utf8 "Type.Nothing"
  | .regular existential segments arguments nullable =>
    record "Type.Regular"
      [("existential", flagText existential),
       ("segments", listing segments),
       ("arguments", listing (typeDumps arguments)),
       ("nullable", flagText nullable)]

/-- The dumps of type references. -/
def typeDumps : List TypeReference → List Bytes
  | [] => []
  | t :: rest => t.dump :: typeDumps rest

end

/-- The dump of a type reference that may be absent. -/
def typeDump? : Option TypeReference → Bytes
  | none => absent
  | some t => t.dump

/-- The dump of a type parameter. -/
def typeParameterDump (name : Bytes) : Bytes := record "TypeParameter" [("name", name)]

/-- The dump of a value parameter. -/
def Parameter.dump (p : Parameter) : Bytes :=
  record "ValueParameter" [("name", p.name), ("type", p.type.dump)]

/-- The dump of modifiers. -/
def modifiersDump (modifiers : List Modifier) : Bytes :=
  listing (modifiers.map fun m => utf8 m.name)

/-- The dump of type parameters. -/
def typeParametersDump (names : List Bytes) : Bytes := listing (names.map typeParameterDump)

mutual

/-- The dump of a declaration. -/
def Declaration.dump : Declaration → Bytes
  | .data modifiers flavor name types parameters bindings members =>
    record "Data"
      [("modifiers", modifiersDump modifiers),
       ("flavor", utf8 flavor.name),
       ("name", name),
       ("typeParameters", typeParametersDump types),
       ("valueParameters", listing (parameters.map Parameter.dump)),
       ("bindings", listing (typeDumps bindings)),
       ("members", listing (declarationDumps members))]
  | .trait modifiers name types inherits members =>
    record "Trait"
      [("modifiers", modifiersDump modifiers),
       ("name", name),
       ("typeParameters", typeParametersDump types),
       ("inherits", listing (typeDumps inherits)),
       ("members", listing (declarationDumps members))]
  | .typealias modifiers name types expanded =>
    record "Typealias"
      [("modifiers", modifiersDump modifiers),
       ("name", name),
       ("typeParameters", typeParametersDump types),
       ("expanded", expanded.dump)]
  | .effect modifiers name types =>
    record "Effect"
      [("modifiers", modifiersDump modifiers),
       ("name", name),
       ("typeParameters", typeParametersDump types)]
  | .impl modifiers dataType traitType members =>
    record "Impl"
      [("modifiers", modifiersDump modifiers),
       ("dataType", dataType.dump),
       ("traitType", traitType.dump),
       ("members", listing (declarationDumps members))]
  | .function modifiers receiver name types parameters returns effects =>
    record "Function"
      [("modifiers", modifiersDump modifiers),
       ("receiver", typeDump? receiver),
       ("name", name),
       ("typeParameters", typeParametersDump types),
       ("valueParameters", listing (parameters.map Parameter.dump)),
       ("return", typeDump? returns),
       ("effects", listing (typeDumps effects))]
  | .property modifiers writable receiver name types type effects =>
    record "Property"
      [("modifiers", modifiersDump modifiers),
       ("mutable", flagText writable),
       ("receiver", typeDump? receiver),
       ("name", name),
       ("typeParameters", typeParametersDump types),
       ("return", typeDump? type),
       ("effects", listing (typeDumps effects))]

/-- The dumps of declarations. -/
def declarationDumps : List Declaration → List Bytes
  | [] => []
  | d :: rest => d.dump :: declarationDumps rest

end

/-- The dump of a package. -/
def Package.dump (p : Package) : Bytes :=
  record "Package"
    [("nameParts", listing p.nameParts),
     ("declarations", listing (declarationDumps p.declarations))]

end Yurin.Skeleton
