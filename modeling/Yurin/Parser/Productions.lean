import Yurin.Parser.Basic

/-!
# The productions that refer to one another

Types, expressions, blocks and declarations contain each other. Their parsers are written over a
record of all four, `Productions`, and each refers to the others through the record. Every way from
a production back into the record consumes a token first, so nesting is never deeper than there
are tokens.
-/

namespace Yurin.Parser

/-- The parsers of the four kinds of phrases that nest. -/
structure Productions where
  /-- A written type, if one begins here. -/
  type : Parser (Option TypeExpr)
  /-- An expression; where none begins, a `bad` one that consumes nothing. -/
  expression : Parser Expr
  /-- A block, from its opening brace. -/
  block : Parser Block
  /-- A declaration; nothing is consumed where none begins. -/
  declaration : Parser (Option Declaration)

/-- Parsers that read nothing and give up, for a nesting deeper than the tokens allow. -/
def Productions.empty : Productions where
  type := do
    giveUp
    return none
  expression := do
    giveUp
    return .bad (← current)
  block := do
    giveUp
    return .mk []
  declaration := do
    giveUp
    return none

end Yurin.Parser
