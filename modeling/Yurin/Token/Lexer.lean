import Yurin.Text.Rune
import Yurin.Token

/-!
# The lexer

`lex` cuts a source into tokens, trivia included, and closes the list with an empty `eof` token.
At every position the first rule of `Lexer.rules` that matches makes the token; the last rule
takes any one character as an `error` token, so there is always a match and no byte is lost.

A rule answers how many bytes it takes at the head of the remaining text. Words and word
boundaries are ASCII; in comments and string literals any byte may stand.
-/

namespace Yurin

namespace Lexer

/-- A lexical rule: the kind of token it makes, and the length of its match at the head of a
text. -/
structure Rule where
  kind : Kind
  length? : Bytes → Option Nat

/-- The length of a fixed spelling. -/
def spelled (spelling : Bytes) (text : Bytes) : Option Nat :=
  if spelling.isPrefixOf text then some spelling.length else none

/-- A fixed spelling that no further word byte follows. -/
def spelledWord (spelling : Bytes) (text : Bytes) : Option Nat :=
  match Bytes.dropHead? spelling text with
  | some (b :: _) => if isWordByte b then none else some spelling.length
  | some [] => some spelling.length
  | none => none

/-- The longest run of bytes that satisfy `p`, when it is not empty. -/
def run (p : UInt8 → Bool) (text : Bytes) : Option Nat :=
  match (text.takeWhile p).length with
  | 0 => none
  | n + 1 => some (n + 1)

/-- How many bytes there are up to and including the first `*/`. -/
def commentClose : Bytes → Option Nat
  | [] => none
  | [_] => none
  | a :: b :: rest =>
    if a = 42 ∧ b = 47 then some 2 else (commentClose (b :: rest)).map (· + 1)

/-- A comment from `/*` to the first `*/` after it. -/
def blockComment : Bytes → Option Nat
  | 47 :: 42 :: rest => (commentClose rest).map (· + 2)
  | _ => none

/-- A comment from `//` to the end of the line. -/
def lineComment : Bytes → Option Nat
  | 47 :: 47 :: rest => some ((rest.takeWhile (· != lineFeed)).length + 2)
  | _ => none

/-- A line feed, with a carriage return in front of it or not. -/
def lineBreak : Bytes → Option Nat
  | 10 :: _ => some 1
  | 13 :: 10 :: _ => some 2
  | _ => none

/-- Blanks inside a line: space, tab, carriage return and form feed. -/
def isBlank (b : UInt8) : Bool := b == 32 || b == 9 || b == 13 || b == 12

/-- How many bytes there are up to and including the quote that closes a string literal. A
backslash takes the next character with it, and the literal stays on its line. -/
def quoteClose : (escaped : Bool) → Bytes → Option Nat
  | _, [] => none
  | true, b :: rest => if b = lineFeed then none else (quoteClose false rest).map (· + 1)
  | false, b :: rest =>
    if b = 34 then some 1
    else if b = lineFeed then none
    else (quoteClose (b == 92) rest).map (· + 1)

/-- A string literal in double quotes. -/
def stringLiteral : Bytes → Option Nat
  | 34 :: rest => (quoteClose false rest).map (· + 1)
  | _ => none

/-- A word: a letter or underscore, then letters, digits and underscores. -/
def word : Bytes → Option Nat
  | [] => none
  | b :: rest =>
    if isLetter b || b == 95 then some ((rest.takeWhile isWordByte).length + 1) else none

/-- Any one character. -/
def character : Bytes → Option Nat
  | [] => none
  | b :: rest => some (decodeRune b rest).2

/-- The rule of a mark. -/
def ofMark (mark : Mark) : Rule := ⟨.mark mark, spelled (utf8 mark.spelling)⟩

/-- The rules in order of priority. Marks that begin with other marks come before them. -/
def rules : List Rule :=
  [⟨.blockComment, blockComment⟩,
   ⟨.lineComment, lineComment⟩,
   ⟨.newline, lineBreak⟩,
   ⟨.whitespace, run isBlank⟩,
   ⟨.stringLiteral, stringLiteral⟩,
   ⟨.intLiteral, run isDigit⟩,
   ⟨.keyword .notIn, spelledWord (utf8 "!in")⟩,
   ⟨.keyword .notIs, spelledWord (utf8 "!is")⟩,
   ⟨.keyword .safeAs, spelled (utf8 "as?")⟩,
   ⟨.identifier, word⟩] ++
  [.rangeEq, .range, .safeDot, .elvis, .nonNull, .notEq, .eqEq, .greaterEq, .lessEq, .andAnd,
   .orOr, .arrow, .reference, .colon, .dot, .comma, .semicolon, .leftBrace, .rightBrace,
   .leftParen, .rightParen, .leftSquare, .rightSquare, .leftAngle, .rightAngle, .eq, .plus,
   .minus, .multiply, .divide, .modulo, .and, .or, .not, .nullable].map ofMark ++
  [⟨.error, character⟩]

/-- The reserved word that a word spells, if it is one. -/
def keyword? (text : Bytes) : Option Keyword := Keyword.all.find? (utf8 ·.spelling == text)

/-- The kind of a word: reserved words are not identifiers. -/
def wordKind (text : Bytes) : Kind :=
  match keyword? text with
  | some word => .keyword word
  | none => .identifier

/-- The first rule that matches at the head of a text, with the length of its match. -/
def firstMatch (text : Bytes) : List Rule → Kind × Nat
  | [] => (.error, 1)
  | rule :: rest =>
    match rule.length? text with
    | some n => (rule.kind, n)
    | none => firstMatch text rest

/-- The kind and length of the token at the head of a text. -/
def head (text : Bytes) : Kind × Nat :=
  match firstMatch text rules with
  | (.identifier, n) => (wordKind (text.take n), n)
  | found => found

/-- The empty token at the end of a text. -/
def endToken (p : Place) : Token := ⟨.eof, [], p.offset, p.offset, p.line, p.column⟩

/-- The tokens from `p` on, passing over the `skip` bytes that belong to the token made before. -/
def tokensFrom : (skip : Nat) → Place → Bytes → List Token
  | _, p, [] => [endToken p]
  | skip + 1, p, b :: rest => tokensFrom skip (p.step b) rest
  | 0, p, b :: rest =>
    let (kind, n) := head (b :: rest)
    ⟨kind, (b :: rest).take n, p.offset, p.offset + n, p.line, p.column⟩ ::
      tokensFrom (n - 1) (p.step b) rest

end Lexer

/-- The tokens of a source, trivia included, and the `eof` token at its end. -/
def lex (source : Bytes) : List Token := Lexer.tokensFrom 0 Place.start source

end Yurin
