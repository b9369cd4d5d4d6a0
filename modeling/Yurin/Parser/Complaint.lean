import Yurin.Token

/-!
# Syntax errors

A complaint names the token at which the parser noticed an error, and the cause. The wording of
each cause is in `Complaint.message`.
-/

namespace Yurin

/-- What the parser would have accepted in place of the token it found. -/
inductive Expectation
  | kind (k : Kind)
  | declaration
  | member
  | type
  | parameter
  | statementEnd
  | matchArm
  deriving DecidableEq, Repr

/-- Why the parser complains about a token. -/
inductive Cause
  /-- No lexical rule but the last one takes the character. -/
  | unrecognized
  /-- Another token was due. -/
  | mismatched (due : Expectation)
  /-- The token and those after it are skipped until one that may follow. -/
  | extraneous (due : Expectation)
  /-- No expression begins with the token. -/
  | noExpression
  deriving DecidableEq, Repr

/-- A syntax error at a token. -/
structure Complaint where
  offending : Token
  cause : Cause
  deriving DecidableEq, Repr

namespace Kind

/-- A kind as messages name it: its spelling in quotes when it has only one. -/
def expectation : Kind → String
  | .keyword word => "'" ++ word.spelling ++ "'"
  | .mark sign => "'" ++ sign.spelling ++ "'"
  | .eof => "<EOF>"
  | kind => kind.name

end Kind

namespace Expectation

/-- What was due, in the words of the messages. -/
def text : Expectation → String
  | .kind k => k.expectation
  | .declaration =>
    "\x7b<EOF>, 'data', 'trait', 'typealias', 'effect', 'impl', 'fun', 'val', 'var'\x7d"
  | .member => "\x7b'\x7d', 'data', 'trait', 'typealias', 'effect', 'impl', 'fun', 'val', 'var'\x7d"
  | .type => "\x7b'(', 'Nothing', 'dynamic', 'exist', Identifier\x7d"
  | .parameter => "\x7b')', Identifier\x7d"
  | .statementEnd => "\x7b<NL>, ';', '\x7d'\x7d"
  | .matchArm => "\x7b'else', '\x7d', 'is', 'in'\x7d"

end Expectation

namespace Complaint

/-- The text of a complaint. -/
def message (c : Complaint) : Bytes :=
  match c.cause with
  | .unrecognized => utf8 "token recognition error at: '" ++ c.offending.text ++ utf8 "'"
  | .mismatched due =>
    utf8 "mismatched input " ++ c.offending.quoted ++ utf8 " expecting " ++ utf8 due.text
  | .extraneous due =>
    utf8 "extraneous input " ++ c.offending.quoted ++ utf8 " expecting " ++ utf8 due.text
  | .noExpression => utf8 "no viable alternative at input " ++ c.offending.quoted

end Complaint

end Yurin
