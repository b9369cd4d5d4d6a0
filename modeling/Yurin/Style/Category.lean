import Yurin.Text.Quoted

/-!
# Categories of text

The roles that a span of source text can play. Every pass classifies spans into categories, and a
theme says how each category is drawn. Categories are numbered in declaration order; a number
outside the table is kept as `unlisted`.
-/

namespace Yurin

/-- The role of a span of text. -/
inductive Category
  | none | keyword | stringLiteral | numberLiteral | lineComment | blockComment
  | colon | dot | safeDot | comma | bracket | paren
  | square | operator | arrow | nullableMarker | nonNull | reference
  | dataDeclaration | traitDeclaration | effectDeclaration | functionDeclaration | functionCall
  | propertyDeclaration
  | namedValueArgument | typeParameter | parameter | error
  | unlisted (code : Int)
  deriving DecidableEq, Repr, Inhabited

/-- A name that no category has. -/
structure UnknownCategory where
  name : Bytes
  deriving DecidableEq, Repr

namespace UnknownCategory

/-- The text of the error. -/
def message (e : UnknownCategory) : Bytes := utf8 "unknown category " ++ quoted e.name

end UnknownCategory

namespace Category

/-- The categories that a theme can style, in declaration order. -/
def all : List Category :=
  [.keyword, .stringLiteral, .numberLiteral, .lineComment, .blockComment, .colon, .dot, .safeDot,
   .comma, .bracket, .paren, .square, .operator, .arrow, .nullableMarker, .nonNull, .reference,
   .dataDeclaration, .traitDeclaration, .effectDeclaration, .functionDeclaration, .functionCall,
   .propertyDeclaration, .namedValueArgument, .typeParameter, .parameter, .error]

/-- The name of a category. -/
def name : Category → String
  | .none => "none"
  | .keyword => "keyword"
  | .stringLiteral => "string-literal"
  | .numberLiteral => "number-literal"
  | .lineComment => "line-comment"
  | .blockComment => "block-comment"
  | .colon => "colon"
  | .dot => "dot"
  | .safeDot => "safe-dot"
  | .comma => "comma"
  | .bracket => "bracket"
  | .paren => "paren"
  | .square => "square"
  | .operator => "operator"
  | .arrow => "arrow"
  | .nullableMarker => "nullable-marker"
  | .nonNull => "unsafe-cast"
  | .reference => "reference"
  | .dataDeclaration => "data-declaration"
  | .traitDeclaration => "trait-declaration"
  | .effectDeclaration => "effect-declaration"
  | .functionDeclaration => "function-declaration"
  | .functionCall => "function-call"
  | .propertyDeclaration => "property-declaration"
  | .namedValueArgument => "named-value-argument"
  | .typeParameter => "type-parameter"
  | .parameter => "parameter"
  | .error => "error"
  | .unlisted _ => "unknown"

/-- The category with a number. -/
def ofCode (code : Int) : Category :=
  match code with
  | .ofNat n => ((Category.none :: all)[n]?).getD (.unlisted code)
  | .negSucc _ => .unlisted code

/-- The number of a category. -/
def code : Category → Int
  | .unlisted code => code
  | c => (Category.none :: all).idxOf c

/-- The category with a name. -/
def parse (name : Bytes) : Except UnknownCategory Category :=
  match all.find? fun c => utf8 c.name == name with
  | some c => .ok c
  | Option.none => .error ⟨name⟩

end Category

end Yurin
