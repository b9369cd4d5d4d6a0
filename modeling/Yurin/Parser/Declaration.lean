import Yurin.Parser.Productions
import Yurin.Parser.Type

/-!
# Declarations and statements

The declarations of the language, their parameter lists and bodies, and the statements of a block.
Where a declaration or statement does not begin with the current token, the enclosing list skips at
least that token, so every list makes progress.
-/

namespace Yurin.Parser

/-- One more modifier. The word `impl` is one only when another modifier or a declaration
follows. -/
def modifierStep : Parser (Step Token) := do
  let k ← kind
  if !k.isModifier then return .stop
  if k == .keyword .impl && !(← nextKind).startsDeclaration then return .stop
  return .found (← advance)

/-- Modifiers. -/
def modifiers : Parser (List Token) := collect modifierStep

/-- One name between `<` and `>`, unless the list ends here. -/
def typeParameterStep : Parser (Step Identifier) := do
  if ← isAtAny [.mark .rightAngle, .eof] then return .stop
  match ← expectIdentifier with
  | none => return .stop
  | some name => return ⟨some name, ← accept (.mark .comma)⟩

/-- The names between `<` and `>`. -/
def typeParameters : Parser (List Identifier) := do
  let _ ← advance
  let names ← collect typeParameterStep
  expect_ (.mark .rightAngle)
  return names

/-- Type parameters, if they begin here. -/
def typeParameters? : Parser (Option (List Identifier)) := do
  if ← isAt (.mark .leftAngle) then return some (← typeParameters)
  return none

/-- Where a search for the next value parameter ends. -/
def endsParameter (l : Lexeme) : Bool :=
  [.mark .rightParen, .mark .comma, .mark .leftBrace].contains l.token.kind
    || l.token.kind.startsDeclaration

/-- A type after a mark, if the mark stands here. -/
def typeAfter? (P : Productions) (mark : Mark) : Parser (Option TypeExpr) := do
  if ← accept (.mark mark) then P.type else return none

/-- A type after a mark that has to stand here. -/
def typeAfter (P : Productions) (mark : Mark) : Parser (Option TypeExpr) := do
  if (← expect (.mark mark)).isSome then P.type else return none

/-- A list of types after a mark, if the mark stands here. -/
def typesAfter? (P : Productions) (mark : Mark) : Parser (List TypeExpr) := do
  if ← accept (.mark mark) then typeList P.type else return []

/-- An expression after `=`, if the sign stands here. -/
def valueAfterEq? (P : Productions) : Parser (Option Expr) := do
  if ← accept (.mark .eq) then return some (← P.expression)
  return none

/-- One value parameter, from its name. -/
def valueParameter (P : Productions) : Parser Parameter := do
  let name ← advance
  let type ← typeAfter P .colon
  return .mk ⟨name⟩ type (← valueAfterEq? P)

/-- Drops what stands in the place of a value parameter; a comma after it asks for another. -/
def badParameter : Parser (Step Parameter) := do
  complain (.mismatched .parameter)
  skipUntil endsParameter
  if ← isAt (.mark .comma) then
    skip
    return .again
  return .stop

/-- One value parameter, unless the list ends here. -/
def parameterStep (P : Productions) : Parser (Step Parameter) := do
  if ← isAtAny [.mark .rightParen, .eof] then return .stop
  if ← isAt .identifier then
    let parameter ← valueParameter P
    return ⟨some parameter, ← accept (.mark .comma)⟩
  badParameter

/-- The value parameters between parentheses. -/
def valueParameters (P : Productions) : Parser (List Parameter) := do
  let _ ← advance
  let found ← inBrackets (collect (parameterStep P))
  expect_ (.mark .rightParen)
  return found

/-- Value parameters, if they begin here. -/
def valueParameters? (P : Productions) : Parser (Option (List Parameter)) := do
  if ← isAt (.mark .leftParen) then return some (← valueParameters P)
  return none

/-- Value parameters that have to begin here. -/
def requiredParameters (P : Productions) : Parser (Option (List Parameter)) := do
  if ← isAt (.mark .leftParen) then return some (← valueParameters P)
  complain (.mismatched (.kind (.mark .leftParen)))
  return none

/-- Where a search for the next member ends. -/
def endsMember (l : Lexeme) : Bool :=
  l.token.kind == .mark .rightBrace || l.token.kind.startsDeclaration

/-- The declarations between braces. -/
def typeBody (P : Productions) : Parser (List Declaration) := do
  let _ ← advance
  braced P.declaration .member endsMember

/-- A type body, if one begins here. -/
def typeBody? (P : Productions) : Parser (Option (List Declaration)) := do
  if ← isAt (.mark .leftBrace) then return some (← typeBody P)
  return none

/-- A block body, if one begins here. -/
def block? (P : Productions) : Parser (Option Block) := do
  if ← isAt (.mark .leftBrace) then return some (← P.block)
  return none

/-- The body of a function or accessor: a block or, after `=`, an expression. -/
def body? (P : Productions) : Parser (Option Block × Option Expr) := do
  match ← block? P with
  | some block => return (some block, none)
  | none => return (none, ← valueAfterEq? P)

/-- The keyword, name and type parameters of a declaration whose name comes first. -/
def namedHead (modifiers : List Token) : Parser Head := do
  let keyword ← advance
  let name ← expectIdentifier
  return ⟨modifiers, keyword, name, ← typeParameters?⟩

/-- A data declaration, from `data`. -/
def dataDeclaration (P : Productions) (modifiers : List Token) (flavor : Option Token) :
    Parser Declaration := do
  let head ← namedHead modifiers
  let parameters ← valueParameters? P
  let bindings ← typesAfter? P .colon
  return .data head flavor parameters bindings (← typeBody? P)

/-- A trait declaration. -/
def traitDeclaration (P : Productions) (modifiers : List Token) : Parser Declaration := do
  let head ← namedHead modifiers
  let inherits ← typesAfter? P .colon
  return .trait head inherits (← typeBody? P)

/-- A type alias. -/
def typealiasDeclaration (P : Productions) (modifiers : List Token) : Parser Declaration := do
  let head ← namedHead modifiers
  return .typealias head (← typeAfter P .eq)

/-- An effect declaration. -/
def effectDeclaration (modifiers : List Token) : Parser Declaration := do
  return .effect (← namedHead modifiers)

/-- An implementation of a trait for a type. -/
def implDeclaration (P : Productions) (modifiers : List Token) : Parser Declaration := do
  let keyword ← advance
  let dataType ← P.type
  let traitType ← typeAfter P .colon
  return .impl modifiers keyword dataType traitType (← typeBody? P)

/-- A receiver written as a type of its own, with the name after a dot. -/
def explicitReceiver (P : Productions) : Parser (Option TypeExpr × Option Identifier) := do
  let receiver ← P.type
  if ← isAtAny [.mark .dot, .mark .safeDot] then
    let _ ← advance
    return (receiver, ← expectIdentifier)
  expect_ (.mark .dot)
  return (receiver, none)

/-- The dot after a receiver with type arguments, and whether the receiver is nullable. -/
def receiverDot : Parser Bool := do
  if ← accept (.mark .safeDot) then return true
  let nullable ← accept (.mark .nullable)
  expect_ (.mark .dot)
  return nullable

/-- The rest of a receiver with type arguments, and the name after it. -/
def genericReceiver (P : Productions) (parts : List Identifier) :
    Parser (Option TypeExpr × Option Identifier) := do
  let types ← typeArguments P.type
  let nullable ← receiverDot
  return (some (.regular false ⟨parts⟩ types nullable), ← expectIdentifier)

/-- The receiver type of a function or property and its name. In `a.b.c` the last part is the name
and the parts before it are the receiver. -/
def receiverAndName (P : Productions) : Parser (Option TypeExpr × Option Identifier) := do
  if ← isAtAny [.mark .leftParen, .keyword .exist, .keyword .nothing, .keyword .dynamic] then
    return ← explicitReceiver P
  match ← dottedName with
  | none => return (none, none)
  | some ⟨parts⟩ =>
    if ← isAt (.mark .leftAngle) then
      return ← genericReceiver P parts
    if (← isAt (.mark .safeDot)) && (← nextKind) == .identifier then
      let _ ← advance
      return (some (.regular false ⟨parts⟩ [] true), some ⟨← advance⟩)
    match parts.dropLast with
    | [] => return (none, parts.getLast?)
    | receiver => return (some (.regular false ⟨receiver⟩ [] false), parts.getLast?)

/-- A function, from its keyword. -/
def functionDeclaration (P : Productions) (modifiers : List Token) : Parser Declaration := do
  let keyword ← advance
  let generics ← typeParameters?
  let (receiver, name) ← receiverAndName P
  let parameters ← requiredParameters P
  let returnType ← typeAfter? P .colon
  let effects ← typesAfter? P .divide
  let (block, value) ← body? P
  return .function ⟨modifiers, keyword, name, generics⟩ receiver parameters returnType effects
    block value

/-- The parameter of a setter, if its name stands here. A getter has none. -/
def setterParameter? (keyword : Token) : Parser (Option Identifier) := do
  if keyword.kind == .keyword .set && (← isAt .identifier) then return some ⟨← advance⟩
  return none

/-- The parentheses of an accessor, if they stand here. -/
def accessorParameter? (keyword : Token) : Parser (Option Identifier) := do
  if ← accept (.mark .leftParen) then
    let parameter ← setterParameter? keyword
    expect_ (.mark .rightParen)
    return parameter
  return none

/-- A getter or setter, from its keyword. -/
def accessor (P : Productions) : Parser Accessor := do
  let keyword ← advance
  let parameter ← accessorParameter? keyword
  let (block, value) ← body? P
  return .mk keyword parameter block value

/-- One more getter or setter. -/
def accessorStep (P : Productions) : Parser (Step Accessor) := do
  if ← isAtAny [.keyword .get, .keyword .set] then return .found (← accessor P)
  return .stop

/-- A property, from its keyword. -/
def propertyDeclaration (P : Productions) (modifiers : List Token) : Parser Declaration := do
  let keyword ← advance
  let generics ← typeParameters?
  let (receiver, name) ← receiverAndName P
  let type ← typeAfter? P .colon
  let effects ← typesAfter? P .divide
  let initializer ← valueAfterEq? P
  let accessors ← collect (accessorStep P)
  return .property ⟨modifiers, keyword, name, generics⟩ receiver type effects initializer accessors

/-- A declaration, if one begins here. Modifiers or the word `ref` without a declaration after them
make a `bad` one. -/
def declaration (P : Productions) : Parser (Option Declaration) := do
  let first ← current
  let mods ← modifiers
  match ← kind with
  | .keyword .data => return some (← dataDeclaration P mods none)
  | .keyword .val =>
    if (← nextKind) == .keyword .data then
      let flavor ← advance
      return some (← dataDeclaration P mods (some flavor))
    return some (← propertyDeclaration P mods)
  | .keyword .ref =>
    let flavor ← advance
    if ← isAt (.keyword .data) then
      return some (← dataDeclaration P mods (some flavor))
    complain (.mismatched (.kind (.keyword .data)))
    return some (.bad first (← current))
  | .keyword .var => return some (← propertyDeclaration P mods)
  | .keyword .trait => return some (← traitDeclaration P mods)
  | .keyword .typealias => return some (← typealiasDeclaration P mods)
  | .keyword .effect => return some (← effectDeclaration mods)
  | .keyword .impl => return some (← implDeclaration P mods)
  | .keyword .fun_ => return some (← functionDeclaration P mods)
  | _ =>
    if mods.isEmpty then return none
    complain (.mismatched .declaration)
    return some (.bad first (← current))

/-! ## Statements -/

/-- A local variable, from its keyword. -/
def localVariable (P : Productions) : Parser Statement := do
  let keyword ← advance
  let name ← expectIdentifier
  let type ← typeAfter? P .colon
  return .localVariable keyword name type (← valueAfterEq? P)

/-- An expression or an assignment, if one begins here. -/
def expressionStatement (P : Productions) : Parser (Option Statement) := do
  let before ← consumed
  let target ← P.expression
  if (← consumed) == before then return none
  if ← isAtSameLine (.mark .eq) then
    let _ ← advance
    return some (.assignment target (← P.expression))
  return some (.expression target)

/-- A statement, if one begins here. -/
def statement (P : Productions) : Parser (Option Statement) := do
  let k ← kind
  if [.keyword .val, .keyword .var].contains k
      && !([.keyword .data, .mark .leftAngle].contains (← nextKind)) then
    return some (← localVariable P)
  if k.startsDeclaration then
    return (← P.declaration).map .declaration
  expressionStatement P

/-- Where a statement ends: before a closing brace, a semicolon or a new line. -/
def endsStatement (l : Lexeme) : Bool :=
  [.mark .rightBrace, .mark .semicolon].contains l.token.kind || l.afterBreak

/-- A statement, if one begins here, with what stands between it and where it has to end. -/
def wholeStatement (P : Productions) : Parser (Option Statement) := do
  let found ← statement P
  let here := (← get).current
  if !(here.token.kind == .eof || endsStatement here) then
    recoverTo .statementEnd endsStatement
  return found

/-- A block, from its opening brace. -/
def block (P : Productions) : Parser Block := do
  let _ ← advance
  return .mk (← braced (wholeStatement P) .statementEnd endsStatement)

end Yurin.Parser
