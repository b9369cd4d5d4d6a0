import Yurin.Token.Kind

/-!
# Tokens

A token is a piece of source text with its kind, its byte span and the place where it begins. Lines
count from one and columns are byte offsets from the start of the line. Spans and places are
integers, since tokens may also come from outside the lexer.
-/

namespace Yurin

/-- A token: its kind, text, byte span `[start, stop)`, and the line and column of its start. -/
structure Token where
  kind : Kind
  text : Bytes
  start : Int
  stop : Int
  line : Int
  column : Int
  deriving DecidableEq, Repr, Inhabited

namespace Token

/-- The token as error messages quote it. -/
def quoted (t : Token) : Bytes :=
  match t.kind with
  | .eof => utf8 "'<EOF>'"
  | _ => utf8 "'" ++ t.text ++ utf8 "'"

end Token

/-- A place in a text that is read byte by byte: offset, line from one, and column from zero. -/
structure Place where
  offset : Nat
  line : Nat
  column : Nat
  deriving DecidableEq, Repr

namespace Place

/-- The start of a text. -/
def start : Place := ⟨0, 1, 0⟩

/-- The place after one more byte; a line feed opens the next line. -/
def step (p : Place) (b : UInt8) : Place :=
  if b = lineFeed then ⟨p.offset + 1, p.line + 1, 0⟩ else ⟨p.offset + 1, p.line, p.column + 1⟩

end Place

end Yurin
