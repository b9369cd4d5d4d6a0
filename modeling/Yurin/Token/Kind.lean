import Yurin.Text.Bytes

/-!
# Kinds of tokens

A token is trivia (blanks, line breaks, comments), a name, a literal, one of the reserved words,
one of the punctuation marks and operators, the end of input, or an unrecognised character. Kinds
are numbered in declaration order; a number outside the table is kept as `unlisted`.
-/

namespace Yurin

/-- The reserved words, with the operators that are spelt with letters. -/
inductive Keyword
  | package | import_ | data | trait | typealias | impl | fun_ | var
  | val | ref | get | set | this | effect | open_ | sealed
  | abstract | operator | singleton | exist | private_ | internal | restricted | public_
  | nothing | dynamic | in_ | notIn | is | notIs | as | safeAs
  | if_ | else_ | match_ | return_ | break_ | continue_
  deriving DecidableEq, Repr, Inhabited

namespace Keyword

/-- Every one, in declaration order. -/
def all : List Keyword :=
  [.package, .import_, .data, .trait, .typealias, .impl, .fun_, .var, .val, .ref, .get,
   .set, .this, .effect, .open_, .sealed, .abstract, .operator, .singleton, .exist,
   .private_, .internal, .restricted, .public_, .nothing, .dynamic, .in_, .notIn, .is,
   .notIs, .as, .safeAs, .if_, .else_, .match_, .return_, .break_, .continue_]

/-- Its name. -/
def name : Keyword → String
  | .package => "Package"
  | .import_ => "Import"
  | .data => "Data"
  | .trait => "Trait"
  | .typealias => "Typealias"
  | .impl => "Impl"
  | .fun_ => "Fun"
  | .var => "Var"
  | .val => "Val"
  | .ref => "Ref"
  | .get => "Get"
  | .set => "Set"
  | .this => "This"
  | .effect => "Effect"
  | .open_ => "Open"
  | .sealed => "Sealed"
  | .abstract => "Abstract"
  | .operator => "Operator"
  | .singleton => "Singleton"
  | .exist => "Exist"
  | .private_ => "Private"
  | .internal => "Internal"
  | .restricted => "Restricted"
  | .public_ => "Public"
  | .nothing => "Nothing"
  | .dynamic => "Dynamic"
  | .in_ => "In"
  | .notIn => "NotIn"
  | .is => "Is"
  | .notIs => "NotIs"
  | .as => "As"
  | .safeAs => "SafeAs"
  | .if_ => "If"
  | .else_ => "Else"
  | .match_ => "Match"
  | .return_ => "Return"
  | .break_ => "Break"
  | .continue_ => "Continue"

/-- How it is written in a source. -/
def spelling : Keyword → String
  | .package => "package"
  | .import_ => "import"
  | .data => "data"
  | .trait => "trait"
  | .typealias => "typealias"
  | .impl => "impl"
  | .fun_ => "fun"
  | .var => "var"
  | .val => "val"
  | .ref => "ref"
  | .get => "get"
  | .set => "set"
  | .this => "this"
  | .effect => "effect"
  | .open_ => "open"
  | .sealed => "sealed"
  | .abstract => "abstract"
  | .operator => "operator"
  | .singleton => "singleton"
  | .exist => "exist"
  | .private_ => "private"
  | .internal => "internal"
  | .restricted => "restricted"
  | .public_ => "public"
  | .nothing => "Nothing"
  | .dynamic => "dynamic"
  | .in_ => "in"
  | .notIn => "!in"
  | .is => "is"
  | .notIs => "!is"
  | .as => "as"
  | .safeAs => "as?"
  | .if_ => "if"
  | .else_ => "else"
  | .match_ => "match"
  | .return_ => "return"
  | .break_ => "break"
  | .continue_ => "continue"

end Keyword

/-- Punctuation marks and operators. -/
inductive Mark
  | colon | dot | safeDot | comma | semicolon | leftBrace | rightBrace | leftParen
  | rightParen | leftSquare | rightSquare | leftAngle | rightAngle | eq | notEq | eqEq
  | greaterEq | lessEq | plus | minus | multiply | divide | modulo | and
  | or | andAnd | orOr | not | elvis | range | rangeEq | arrow
  | nullable | nonNull | reference
  deriving DecidableEq, Repr, Inhabited

namespace Mark

/-- Every one, in declaration order. -/
def all : List Mark :=
  [.colon, .dot, .safeDot, .comma, .semicolon, .leftBrace, .rightBrace, .leftParen,
   .rightParen, .leftSquare, .rightSquare, .leftAngle, .rightAngle, .eq, .notEq, .eqEq,
   .greaterEq, .lessEq, .plus, .minus, .multiply, .divide, .modulo, .and, .or, .andAnd,
   .orOr, .not, .elvis, .range, .rangeEq, .arrow, .nullable, .nonNull, .reference]

/-- Its name. -/
def name : Mark → String
  | .colon => "Colon"
  | .dot => "Dot"
  | .safeDot => "SafeDot"
  | .comma => "Comma"
  | .semicolon => "Semicolon"
  | .leftBrace => "LeftBrace"
  | .rightBrace => "RightBrace"
  | .leftParen => "LeftParen"
  | .rightParen => "RightParen"
  | .leftSquare => "LeftSquare"
  | .rightSquare => "RightSquare"
  | .leftAngle => "LeftAngle"
  | .rightAngle => "RightAngle"
  | .eq => "Eq"
  | .notEq => "NotEq"
  | .eqEq => "EqEq"
  | .greaterEq => "GreaterEq"
  | .lessEq => "LessEq"
  | .plus => "Plus"
  | .minus => "Minus"
  | .multiply => "Multiply"
  | .divide => "Divide"
  | .modulo => "Modulo"
  | .and => "And"
  | .or => "Or"
  | .andAnd => "AndAnd"
  | .orOr => "OrOr"
  | .not => "Not"
  | .elvis => "Elvis"
  | .range => "Range"
  | .rangeEq => "RangeEq"
  | .arrow => "Arrow"
  | .nullable => "Nullable"
  | .nonNull => "UnsafeCast"
  | .reference => "Reference"

/-- How it is written in a source. -/
def spelling : Mark → String
  | .colon => ":"
  | .dot => "."
  | .safeDot => "?."
  | .comma => ","
  | .semicolon => ";"
  | .leftBrace => "\x7b"
  | .rightBrace => "\x7d"
  | .leftParen => "("
  | .rightParen => ")"
  | .leftSquare => "["
  | .rightSquare => "]"
  | .leftAngle => "<"
  | .rightAngle => ">"
  | .eq => "="
  | .notEq => "!="
  | .eqEq => "=="
  | .greaterEq => ">="
  | .lessEq => "<="
  | .plus => "+"
  | .minus => "-"
  | .multiply => "*"
  | .divide => "/"
  | .modulo => "%"
  | .and => "&"
  | .or => "|"
  | .andAnd => "&&"
  | .orOr => "||"
  | .not => "!"
  | .elvis => "?:"
  | .range => ".."
  | .rangeEq => "..="
  | .arrow => "->"
  | .nullable => "?"
  | .nonNull => "!!"
  | .reference => "::"

end Mark

/-- The lexical class of a token. -/
inductive Kind
  | eof
  | whitespace
  | newline
  | lineComment
  | blockComment
  | identifier
  | stringLiteral
  | intLiteral
  | error
  | keyword (word : Keyword)
  | mark (sign : Mark)
  | unlisted (code : Int)
  deriving DecidableEq, Repr, Inhabited

namespace Kind

/-- Every listed kind, in declaration order. -/
def all : List Kind :=
  [.eof, .whitespace, .newline, .lineComment, .blockComment, .identifier, .stringLiteral,
    .intLiteral, .error] ++ Keyword.all.map .keyword ++ Mark.all.map .mark

/-- The kind with a number; numbers outside the table are unlisted kinds. -/
def ofCode (code : Int) : Kind :=
  match code with
  | .ofNat n => (all[n]?).getD (.unlisted code)
  | .negSucc _ => .unlisted code

/-- The name of a kind. -/
def name : Kind → String
  | .eof => "EOF"
  | .whitespace => "Whitespace"
  | .newline => "Newline"
  | .lineComment => "LineComment"
  | .blockComment => "BlockComment"
  | .identifier => "Identifier"
  | .stringLiteral => "StringLiteral"
  | .intLiteral => "IntLiteral"
  | .error => "Error"
  | .keyword word => word.name
  | .mark m => m.name
  | .unlisted code => s!"Kind({code})"

/-- The listed kind with a name. -/
def ofName? (name : String) : Option Kind := all.find? (·.name == name)

/-- Whether a kind is a reserved word. -/
def isKeyword : Kind → Bool
  | .keyword _ => true
  | _ => false

/-- Whether a kind may stand in the modifier list of a declaration. -/
def isModifier : Kind → Bool
  | .keyword .open_ | .keyword .sealed | .keyword .abstract | .keyword .operator
  | .keyword .singleton | .keyword .impl | .keyword .public_ | .keyword .restricted
  | .keyword .internal | .keyword .private_ => true
  | _ => false

/-- Whether the parser passes over tokens of a kind. -/
def isTrivia : Kind → Bool
  | .whitespace | .newline | .lineComment | .blockComment => true
  | _ => false

/-- Whether a kind introduces a declaration, modifiers apart. -/
def isDeclarationWord : Kind → Bool
  | .keyword .data | .keyword .trait | .keyword .typealias | .keyword .effect | .keyword .fun_
  | .keyword .val | .keyword .var | .keyword .ref => true
  | _ => false

/-- Whether a declaration may begin with a token of the kind. -/
def startsDeclaration (k : Kind) : Bool := k.isModifier || k.isDeclarationWord

/-- Whether an expression may begin with a token of the kind. -/
def startsExpression : Kind → Bool
  | .intLiteral | .stringLiteral | .identifier | .keyword .this | .keyword .if_ | .keyword .match_
  | .keyword .return_ | .keyword .break_ | .keyword .continue_ | .mark .leftParen
  | .mark .reference | .mark .minus | .mark .plus | .mark .not => true
  | _ => false

end Kind

end Yurin
