import Yurin.Style.Theme
import Yurin.Text.Rune
import Yurin.Token

/-!
# Highlights of tokens

The first pass looks at one token at a time: its kind decides the category. Names have no category
of their own; the later passes know what they are. Blanks at the ends of a token, such as those that
end a comment, are not highlighted.
-/

namespace Yurin

namespace Mark

/-- The category of a mark; a semicolon has none. -/
def category? : Mark → Option Category
  | .colon => some .colon
  | .dot => some .dot
  | .safeDot => some .safeDot
  | .comma => some .comma
  | .semicolon => none
  | .leftBrace | .rightBrace => some .bracket
  | .leftParen | .rightParen => some .paren
  | .leftSquare | .rightSquare => some .square
  | .arrow => some .arrow
  | .nullable => some .nullableMarker
  | .nonNull => some .nonNull
  | .reference => some .reference
  | .leftAngle | .rightAngle | .eq | .notEq | .eqEq | .greaterEq | .lessEq | .plus | .minus
  | .multiply | .divide | .modulo | .and | .or | .andAnd | .orOr | .not | .elvis | .range
  | .rangeEq => some .operator

end Mark

namespace Kind

/-- The category of a kind of token. -/
def category? : Kind → Option Category
  | .keyword _ => some .keyword
  | .mark sign => sign.category?
  | .lineComment => some .lineComment
  | .blockComment => some .blockComment
  | .stringLiteral => some .stringLiteral
  | .intLiteral => some .numberLiteral
  | .eof | .whitespace | .newline | .identifier | .error | .unlisted _ => none

/-- The significant kinds that have no category on purpose. -/
def isUnstyled : Kind → Bool
  | .identifier | .error | .mark .semicolon => true
  | _ => false

end Kind

/-- The highlight of a token. -/
def Token.highlight? (theme : Theme) (t : Token) : Option Highlight :=
  t.kind.category?.bind fun c =>
    theme.highlight? (t.start + t.text.leadingSpace) (t.stop - t.text.trailingSpace) c

/-- The highlights of tokens, in order. -/
def lexicalHighlights (theme : Theme) (tokens : List Token) : List Highlight :=
  tokens.filterMap (Token.highlight? theme)

end Yurin
