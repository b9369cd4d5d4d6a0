import Yurin.Parser.Productions
import Yurin.Parser.Type

/-!
# Expressions

An expression is an operand that grows to the right by suffixes: a binary operator with its right
operand, a type test, a call, and so on (`Suffix`, `Expr.extend`). `levels` lists the suffixes by
precedence, loosest first; all of them associate to the left, and the right operand of each level
is an expression of the next. Below them come prefix operators, and below those the postfix forms
and primaries.

A line break ends an expression, except inside parentheses and brackets, and except before the few
operators of `joinsLines`.
-/

namespace Yurin

/-- What may follow an operand and make it a larger expression. -/
inductive Suffix
  | binary (operator : Token) (right : Expr)
  | typeTest (operator : Token) (type : Option TypeExpr)
  | cast (operator : Token) (type : Option TypeExpr)
  | infixCall (function : Identifier) (right : Expr)
  | call (arguments : List Argument)
  | index (indices : List Expr)
  | navigation (operator : Token) (name : Identifier)
  | postfixed (operator : Token)

/-- An expression grown by a suffix. -/
def Expr.extend (left : Expr) : Suffix → Expr
  | .binary operator right => .binary left operator right
  | .typeTest operator type => .typeTest left operator type
  | .cast operator type => .cast left operator type
  | .infixCall function right => .infixCall left function right
  | .call arguments => .call left arguments
  | .index indices => .index left indices
  | .navigation operator member => .navigation left operator member
  | .postfixed operator => .postfixed left operator

namespace Parser

/-- One more suffix. -/
def suffixStep (suffix : Parser (Option Suffix)) : Parser (Step Suffix) := do
  match ← suffix with
  | some s => return .found s
  | none => return .stop

/-- An operand grown by as many suffixes as follow. -/
def chain (operand : Parser Expr) (suffix : Parser (Option Suffix)) : Parser Expr := do
  let first ← operand
  let suffixes ← collect (suffixStep suffix)
  return suffixes.foldl Expr.extend first

/-- The operators that continue an expression across a line break. -/
def joinsLines : Kind → Bool
  | .mark .dot | .mark .safeDot | .mark .elvis | .mark .andAnd | .mark .orOr => true
  | _ => false

/-- Whether the current token is one of the operators and continues the expression before it. -/
def continues (operators : List Kind) : Parser Bool := do
  let k ← kind
  return operators.contains k && (!(← atBreak) || joinsLines k)

/-- A binary operator with its right operand. -/
def binarySuffix (operators : List Mark) (operand : Parser Expr) : Parser (Option Suffix) := do
  if ← continues (operators.map .mark) then
    let operator ← advance
    return some (.binary operator (← operand))
  return none

/-- A type test or a membership test. -/
def testSuffix (P : Productions) (operand : Parser Expr) : Parser (Option Suffix) := do
  if ← continues [.keyword .is, .keyword .notIs] then
    let operator ← advance
    return some (.typeTest operator (← P.type))
  if ← continues [.keyword .in_, .keyword .notIn] then
    let operator ← advance
    return some (.binary operator (← operand))
  return none

/-- A function written between its two arguments, on the line of the first. -/
def infixSuffix (operand : Parser Expr) : Parser (Option Suffix) := do
  if ← isAtSameLine .identifier then
    let function ← advance
    return some (.infixCall ⟨function⟩ (← operand))
  return none

/-- A cast to a type. -/
def castSuffix (P : Productions) : Parser (Option Suffix) := do
  if ← continues [.keyword .as, .keyword .safeAs] then
    let operator ← advance
    return some (.cast operator (← P.type))
  return none

/-- The name in front of an argument, with the sign `=` after it, if they stand here. -/
def argumentName? : Parser (Option Identifier) := do
  if (← isAt .identifier) && (← nextKind) == .mark .eq then
    let name ← advance
    let _ ← advance
    return some ⟨name⟩
  return none

/-- An argument of a call. -/
def argument (P : Productions) : Parser Argument := do
  let name ← argumentName?
  return .mk name (← P.expression)

/-- The arguments of a call, from the opening parenthesis. -/
def arguments (P : Productions) : Parser (List Argument) := bracketed .rightParen (argument P)

/-- The indices of an element, from the opening bracket. -/
def indices (P : Productions) : Parser (List Expr) := bracketed .rightSquare P.expression

/-- A call, an index, a member access or a non-null mark. -/
def postfixSuffix (P : Productions) : Parser (Option Suffix) := do
  if ← isAtSameLine (.mark .leftParen) then
    return some (.call (← arguments P))
  if ← isAtSameLine (.mark .leftSquare) then
    return some (.index (← indices P))
  if (← isAtAny [.mark .dot, .mark .safeDot]) && (← nextKind) == .identifier then
    let operator ← advance
    return some (.navigation operator ⟨← advance⟩)
  if ← isAtSameLine (.mark .nonNull) then
    return some (.postfixed (← advance))
  return none

/-- A block or a single expression. -/
def branch (P : Productions) : Parser Branch := do
  if ← isAt (.mark .leftBrace) then return .block (← P.block)
  return .expr (← P.expression)

/-- What follows an opening parenthesis: an expression and the closing parenthesis. -/
def parenthesized (P : Productions) : Parser Expr := do
  let inner ← inBrackets P.expression
  expect_ (.mark .rightParen)
  return inner

/-- The condition of a conditional, in parentheses that have to stand here. -/
def condition? (P : Productions) : Parser (Option Expr) := do
  if (← expect (.mark .leftParen)).isSome then return some (← parenthesized P)
  return none

/-- The other branch of a conditional. An `else` on a new line with an arrow after it is a match
arm. -/
def elseBranch? (P : Productions) : Parser (Option Branch) := do
  if (← isAt (.keyword .else_)) && !((← atBreak) && (← nextKind) == .mark .arrow) then
    let _ ← advance
    return some (← branch P)
  return none

/-- A conditional, from `if`. -/
def conditional (P : Productions) : Parser Expr := do
  let _ ← advance
  let condition ← condition? P
  let thenBranch ← branch P
  return .ifElse condition thenBranch (← elseBranch? P)

/-- A condition of a match arm, if one begins here. -/
def armCondition (P : Productions) : Parser (Option Condition) := do
  match ← kind with
  | .keyword .is | .keyword .notIs =>
    let operator ← advance
    return some (.ofType operator (← P.type))
  | .keyword .in_ | .keyword .notIn =>
    let operator ← advance
    return some (.within operator (← P.expression))
  | _ =>
    let before ← consumed
    let value ← P.expression
    if (← consumed) == before then return none
    return some (.value value)

/-- One condition of a match arm; a comma after it asks for another. -/
def conditionStep (P : Productions) : Parser (Step Condition) := do
  match ← armCondition P with
  | none => return .stop
  | some c => return ⟨some c, ← accept (.mark .comma)⟩

/-- The arrow of a match arm and what follows it. -/
def armBody (P : Productions) (isElse : Bool) (conditions : List Condition) : Parser MatchArm := do
  if (← expect (.mark .arrow)).isSome then
    return .mk isElse conditions (some (← branch P))
  return .mk isElse conditions none

/-- An arm of a match, if one begins here. -/
def matchArm (P : Productions) : Parser (Option MatchArm) := do
  if ← accept (.keyword .else_) then
    return some (← armBody P true [])
  let conditions ← collect (conditionStep P)
  if conditions.isEmpty then return none
  return some (← armBody P false conditions)

/-- Where a search for the next match arm ends. -/
def endsArm (l : Lexeme) : Bool := l.token.kind == .mark .rightBrace || l.afterBreak

/-- The arms of a match, up to the closing brace. -/
def matchArms (P : Productions) : Parser (List MatchArm) := braced (matchArm P) .matchArm endsArm

/-- What a match looks at, in parentheses, if it is given. -/
def subject? (P : Productions) : Parser (Option Expr) := do
  if ← accept (.mark .leftParen) then return some (← parenthesized P)
  return none

/-- A match, from its keyword. -/
def matching (P : Productions) : Parser Expr := do
  let _ ← advance
  let subject ← subject? P
  if (← expect (.mark .leftBrace)).isSome then
    return .matchOn subject (← matchArms P)
  return .matchOn subject []

/-- A jump, from its keyword. Only `return` takes a value, which begins on the same line. -/
def jump (P : Productions) : Parser Expr := do
  let keyword ← advance
  if keyword.kind == .keyword .return_ && !(← atBreak) && (← kind).startsExpression then
    return .jump keyword (some (← P.expression))
  return .jump keyword none

/-- An expression without operators; a complaint, and nothing consumed, where none begins. -/
def primary (P : Productions) : Parser Expr := do
  match ← kind with
  | .intLiteral | .stringLiteral => return .literal (← advance)
  | .keyword .this => return .this (← advance)
  | .identifier =>
    let first ← advance
    return .name ⟨⟨first⟩ :: (← dottedRest)⟩
  | .mark .leftParen =>
    let _ ← advance
    return .paren (← parenthesized P)
  | .keyword .if_ => conditional P
  | .keyword .match_ => matching P
  | .keyword .return_ | .keyword .break_ | .keyword .continue_ => jump P
  | .mark .reference =>
    let operator ← advance
    return .reference operator (← expectIdentifier)
  | _ =>
    complain .noExpression
    return .bad (← current)

/-- A primary with its postfix forms. -/
def postfixed (P : Productions) : Parser Expr := chain (primary P) (postfixSuffix P)

/-- One more prefix operator. -/
def prefixStep : Parser (Step Token) := do
  if ← isAtAny [.mark .minus, .mark .plus, .mark .not] then return .found (← advance)
  return .stop

/-- A postfix expression with the prefix operators before it. -/
def prefixed (P : Productions) : Parser Expr := do
  let operators ← collect prefixStep
  return operators.foldr .prefixed (← postfixed P)

/-- The suffixes of each level of precedence, loosest first, over the parser of their right
operands. -/
def levels (P : Productions) : List (Parser Expr → Parser (Option Suffix)) :=
  [binarySuffix [.orOr],
   binarySuffix [.andAnd],
   binarySuffix [.eqEq, .notEq],
   binarySuffix [.leftAngle, .rightAngle, .lessEq, .greaterEq],
   testSuffix P,
   binarySuffix [.elvis],
   infixSuffix,
   binarySuffix [.range, .rangeEq],
   binarySuffix [.plus, .minus, .or],
   binarySuffix [.multiply, .divide, .modulo, .and],
   fun _ => castSuffix P]

/-- An expression. -/
def expression (P : Productions) : Parser Expr :=
  (levels P).foldr (fun suffix operand => chain operand (suffix operand)) (prefixed P)

end Parser

end Yurin
