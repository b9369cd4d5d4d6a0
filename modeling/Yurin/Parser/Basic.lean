import Yurin.Parser.Complaint
import Yurin.Tree.Basic

/-!
# Parsers over significant tokens

The parser reads the significant tokens of a source: trivia is dropped, and of the line breaks only
a mark on the token that follows one is kept (`Lexeme`). The stream ends with an `eof` token, which
is never consumed, so there is always a current token.

A `Parser` runs in a `LineMode`, which says whether line breaks count where it stands, and changes a
`Parser.State`. Two kinds of steps consume a token: `advance` matches it, and `skip` drops it while
the parser recovers from an error. After a complaint the parser is silent until it has matched a
token again.

Loops are instances of `collect`, which runs a step as long as the step asks to go on. Every step
that asks to go on consumes a token, so one run more than there are tokens left is always enough. A
loop that needed more, or a parser that went past the last token, would leave the mark `overrun` in
the state.
-/

namespace Yurin

/-- A significant token, and whether a line break stands between it and the one before. -/
structure Lexeme where
  token : Token
  afterBreak : Bool
  deriving DecidableEq, Repr, Inhabited

/-- Whether line breaks end expressions: not inside parentheses and brackets. -/
inductive LineMode
  | significant
  | ignored
  deriving DecidableEq, Repr

namespace Parser

/-- The state of a parse. -/
structure State where
  /-- The token to be read next. -/
  current : Lexeme
  /-- The tokens after the current one. -/
  rest : List Lexeme
  /-- How many tokens lie before the current one. -/
  consumed : Nat
  /-- Whether no token has been matched since the last complaint. -/
  recovering : Bool
  /-- The complaints made so far, the newest first. -/
  complaints : List Complaint
  /-- Whether the parser went past the last token, or past the bound of a loop or of the nesting. -/
  overrun : Bool
  deriving Repr

end Parser

/-- A parser: it reads tokens in a line mode. -/
abbrev Parser := ReaderT LineMode (StateM Parser.State)

namespace Parser

namespace State

/-- The state after a bound was reached. -/
def giveUp (s : State) : State := { s with overrun := true }

/-- The state on the next token; the end of input is never passed. -/
def next (s : State) : State :=
  if s.current.token.kind = .eof then s
  else match s.rest with
    | [] => s.giveUp
    | lexeme :: rest => { s with current := lexeme, rest := rest, consumed := s.consumed + 1 }

/-- The state after a complaint about the current token, which is not made while recovering. -/
def complain (cause : Cause) (s : State) : State :=
  if s.recovering then s
  else
    { s with
      recovering := true
      complaints := ⟨s.current.token, cause⟩ :: s.complaints }

/-- The state on the first token from the current one on that is `eof` or satisfies `stop`. -/
def skipUntil (stop : Lexeme → Bool) : (fuel : Nat) → State → State
  | 0, s => s.giveUp
  | fuel + 1, s =>
    if s.current.token.kind = .eof || stop s.current then s else skipUntil stop fuel s.next

end State

/-! ## Reading tokens -/

/-- The current token. -/
def current : Parser Token := do return (← get).current.token

/-- The kind of the current token. -/
def kind : Parser Kind := do return (← get).current.token.kind

/-- The kind of the token after the current one; at the end of input that of the current one. -/
def nextKind : Parser Kind := do
  let s ← get
  return (s.rest.headD s.current).token.kind

/-- Whether the current token is of a kind. -/
def isAt (k : Kind) : Parser Bool := do return (← kind) == k

/-- Whether the current token is of one of the kinds. -/
def isAtAny (ks : List Kind) : Parser Bool := do return ks.contains (← kind)

/-- Whether a line break that counts stands before the current token. -/
def atBreak : Parser Bool := do
  return (← read) == .significant && (← get).current.afterBreak

/-- Whether the current token is of a kind and on the same line, as far as lines count. -/
def isAtSameLine (k : Kind) : Parser Bool := do
  return (← kind) == k && !(← atBreak)

/-- How many tokens have been consumed. -/
def consumed : Parser Nat := do return (← get).consumed

/-- Consumes the current token as a match. -/
def advance : Parser Token := do
  let s ← get
  set { s.next with recovering := false }
  return s.current.token

/-- Drops the current token. -/
def skip : Parser Unit := modify State.next

/-- Drops tokens up to the first that satisfies `stop`. -/
def skipUntil (stop : Lexeme → Bool) : Parser Unit :=
  modify fun s => s.skipUntil stop (s.rest.length + 1)

/-- Stops at a bound. -/
def giveUp : Parser Unit := modify State.giveUp

/-- Consumes the current token if it is of a kind. -/
def accept (k : Kind) : Parser Bool := do
  if ← isAt k then
    let _ ← advance
    return true
  return false

/-- Complains about the current token. -/
def complain (cause : Cause) : Parser Unit := modify (State.complain cause)

/-- Consumes a token of a kind, or complains. -/
def expect (k : Kind) : Parser (Option Token) := do
  if ← isAt k then return some (← advance)
  complain (.mismatched (.kind k))
  return none

/-- Consumes a token of a kind, or complains; the token itself is not needed. -/
def expect_ (k : Kind) : Parser Unit := do
  let _ ← expect k

/-- Consumes a name, or complains. -/
def expectIdentifier : Parser (Option Identifier) := do
  return (← expect .identifier).map Identifier.mk

/-- Complains about the current token, drops it, and drops what follows up to the first token that
satisfies `stop`. -/
def recoverTo (due : Expectation) (stop : Lexeme → Bool) : Parser Unit := do
  complain (.extraneous due)
  skip
  skipUntil stop

/-! ## Line modes -/

/-- Runs a parser between parentheses or brackets, where line breaks do not count. -/
def inBrackets (p : Parser α) : Parser α := fun _ => p .ignored

/-- Runs a parser between braces, where line breaks count. -/
def inBraces (p : Parser α) : Parser α := fun _ => p .significant

/-! ## Loops -/

/-- What one run of a loop found, and whether the loop goes on. -/
structure Step (α : Type) where
  item : Option α
  more : Bool

namespace Step

/-- The loop ends with nothing more. -/
def stop : Step α := ⟨none, false⟩

/-- The loop goes on with nothing found. -/
def again : Step α := ⟨none, true⟩

/-- The loop goes on after an item. -/
def found (a : α) : Step α := ⟨some a, true⟩

end Step

/-- The items of at most `fuel` runs of a step. -/
def collectUpTo (step : Parser (Step α)) : (fuel : Nat) → Parser (List α)
  | 0 => do
    giveUp
    return []
  | fuel + 1 => do
    let found ← step
    if found.more then
      return found.item.toList ++ (← collectUpTo step fuel)
    return found.item.toList

/-- The items of a step, run until it asks to stop. -/
def collect (step : Parser (Step α)) : Parser (List α) := do
  collectUpTo step ((← get).rest.length + 1)

/-- One item of a list that `close` ends; a comma after it asks for another. An item that consumes
nothing ends the list. -/
def listStep (close : Mark) (item : Parser α) : Parser (Step α) := do
  if ← isAtAny [.mark close, .eof] then return .stop
  let before ← consumed
  let found ← item
  if (← consumed) == before then return .stop
  return ⟨some found, ← accept (.mark .comma)⟩

/-- The items between an opening bracket, which stands here, and the bracket `close`. -/
def bracketed (close : Mark) (item : Parser α) : Parser (List α) := do
  let _ ← advance
  let found ← inBrackets (collect (listStep close item))
  expect_ (.mark close)
  return found

/-- One item of a sequence that always goes on. Where an item consumes nothing, tokens are dropped
up to the first that satisfies `stop`. -/
def progress (item : Parser (Option α)) (due : Expectation) (stop : Lexeme → Bool) :
    Parser (Step α) := do
  let before ← consumed
  let found ← item
  if (← consumed) == before then recoverTo due stop
  return ⟨found, true⟩

/-- One item of a sequence between braces, in which semicolons do not count. -/
def bracedStep (item : Parser (Option α)) (due : Expectation) (stop : Lexeme → Bool) :
    Parser (Step α) := do
  if ← isAtAny [.mark .rightBrace, .eof] then return .stop
  if ← accept (.mark .semicolon) then return .again
  progress item due stop

/-- The items after an opening brace, up to the closing one. -/
def braced (item : Parser (Option α)) (due : Expectation) (stop : Lexeme → Bool) :
    Parser (List α) := do
  let found ← inBraces (collect (bracedStep item due stop))
  expect_ (.mark .rightBrace)
  return found

end Parser

end Yurin
