import Yurin.Parser.Basic

/-!
# Names and written types

Dotted names, type arguments and type lists. The parser of types is a parameter, `type`: it is the
production that these parts are used in.
-/

namespace Yurin.Parser

/-- One more part of a dotted name. A dot belongs to the name only when a name follows it. -/
def dottedStep : Parser (Step Identifier) := do
  if (← isAt (.mark .dot)) && (← nextKind) == .identifier then
    let _ ← advance
    return .found ⟨← advance⟩
  return .stop

/-- The parts of a dotted name after its first part. -/
def dottedRest : Parser (List Identifier) := collect dottedStep

/-- A dotted name. -/
def dottedName : Parser (Option DottedName) := do
  match ← expectIdentifier with
  | none => return none
  | some first => return some ⟨first :: (← dottedRest)⟩

/-- One type of a list; a comma after it asks for another. -/
def typeStep (type : Parser (Option TypeExpr)) : Parser (Step TypeExpr) := do
  match ← type with
  | none => return .stop
  | some t => return ⟨some t, ← accept (.mark .comma)⟩

/-- One type between `<` and `>`, unless the list ends here. -/
def typeArgumentStep (type : Parser (Option TypeExpr)) : Parser (Step TypeExpr) := do
  if ← isAtAny [.mark .rightAngle, .eof] then return .stop
  typeStep type

/-- The types between `<` and `>`. -/
def typeArguments (type : Parser (Option TypeExpr)) : Parser (List TypeExpr) := do
  let _ ← advance
  inBrackets do
    let types ← collect (typeArgumentStep type)
    expect_ (.mark .rightAngle)
    return types

/-- Types with commas between them. -/
def typeList (type : Parser (Option TypeExpr)) : Parser (List TypeExpr) := collect (typeStep type)

/-- Type arguments on the line of the name before them, if there are any. -/
def typeArguments? (type : Parser (Option TypeExpr)) : Parser (List TypeExpr) := do
  if ← isAtSameLine (.mark .leftAngle) then typeArguments type else return []

/-- Whether a type is nullable: a `?` on its line is consumed. -/
def nullableMark : Parser Bool := do
  if ← isAtSameLine (.mark .nullable) then
    let _ ← advance
    return true
  return false

/-- A type that is named, with its arguments and a `?`. -/
def regularType (type : Parser (Option TypeExpr)) : Parser (Option TypeExpr) := do
  let existential ← accept (.keyword .exist)
  match ← dottedName with
  | none => return none
  | some name =>
    let arguments ← typeArguments? type
    return some (.regular existential name arguments (← nullableMark))

/-- A type, or a complaint when none begins here. -/
def typeExpr (type : Parser (Option TypeExpr)) : Parser (Option TypeExpr) := do
  match ← kind with
  | .mark .leftParen =>
    let _ ← advance
    let inner ← inBrackets type
    expect_ (.mark .rightParen)
    return inner.map .parenthesized
  | .keyword .nothing => return some (.nothing (← advance))
  | .keyword .dynamic => return some (.dynamic (← advance))
  | .keyword .exist | .identifier => regularType type
  | _ =>
    complain (.mismatched .type)
    return none

end Yurin.Parser
