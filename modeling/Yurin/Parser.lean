import Yurin.Parser.Declaration
import Yurin.Parser.Expression
import Yurin.Token.Lexer

/-!
# Parsing a file

`parseTokens` reads any list of tokens and `parse` the tokens of a source. Neither fails: what is
wrong is reported as complaints, unrecognised characters first and then the syntax errors in the
order in which they were noticed, and the file holds every declaration that could be read.
-/

namespace Yurin

/-- What the parser reads of a token list: the significant tokens, and the unrecognised ones. -/
structure Significant where
  lexemes : List Lexeme
  unrecognized : List Token

namespace Significant

/-- Splits a token list. `sawBreak` says whether a line break stands after the last significant
token, and `last` is that token; a list without a final `eof` token gets one. -/
def ofTokens (sawBreak : Bool) (last : Option Token) : List Token → Significant
  | [] =>
    match last with
    | none => ⟨[⟨⟨.eof, [], 0, 0, 1, 0⟩, sawBreak⟩], []⟩
    | some t =>
      if t.kind = .eof then ⟨[], []⟩
      else ⟨[⟨⟨.eof, [], t.stop, t.stop, t.line, t.column + t.text.length⟩, sawBreak⟩], []⟩
  | t :: rest =>
    match t.kind with
    | .newline => ofTokens true last rest
    | .whitespace | .lineComment => ofTokens sawBreak last rest
    | .blockComment => ofTokens (sawBreak || t.text.contains lineFeed) last rest
    | .error =>
      let more := ofTokens sawBreak last rest
      ⟨more.lexemes, t :: more.unrecognized⟩
    | _ =>
      let more := ofTokens false (some t) rest
      ⟨⟨t, sawBreak⟩ :: more.lexemes, more.unrecognized⟩

end Significant

namespace Parser

/-- The productions, for a record of those they refer to. -/
def grammar (P : Productions) : Productions where
  type := typeExpr P.type
  expression := expression P
  block := block P
  declaration := declaration P

/-- The productions for phrases nested at most `depth` deep. -/
def grammarUpTo : (depth : Nat) → Productions
  | 0 => .empty
  | depth + 1 => grammar (grammarUpTo depth)

/-- The package line, if there is one. -/
def packageHeader? : Parser (Option PackageHeader) := do
  if ← isAt (.keyword .package) then
    let keyword ← advance
    return some ⟨keyword, ← dottedName⟩
  return none

/-- An import line, from its keyword. -/
def importHeader : Parser ImportHeader := do
  let keyword ← advance
  let name ← dottedName
  if (← isAt (.mark .dot)) && (← nextKind) == .mark .multiply then
    let _ ← advance
    let _ ← advance
    return ⟨keyword, name, true, none⟩
  if ← accept (.keyword .as) then
    return ⟨keyword, name, false, ← expectIdentifier⟩
  return ⟨keyword, name, false, none⟩

/-- One more import line. -/
def importStep : Parser (Step ImportHeader) := do
  if ← isAt (.keyword .import_) then return .found (← importHeader)
  return .stop

/-- Where a search for the next declaration of a file ends. -/
def endsDeclaration (l : Lexeme) : Bool := l.token.kind.startsDeclaration

/-- One more declaration of a file, up to the end of input. -/
def declarationStep (P : Productions) : Parser (Step Declaration) := do
  if ← isAt .eof then return .stop
  progress P.declaration .declaration endsDeclaration

/-- A whole file. -/
def file (P : Productions) : Parser SourceFile := do
  let package ← packageHeader?
  let imports ← collect importStep
  return ⟨package, imports, ← collect (declarationStep P)⟩

/-- The state before the first of the significant tokens, of which there is at least one. -/
def State.start (tokens : Significant) : State :=
  let complaints := (tokens.unrecognized.map fun t => ⟨t, .unrecognized⟩).reverse
  match tokens.lexemes with
  | [] => ⟨default, [], 0, false, complaints, true⟩
  | lexeme :: rest => ⟨lexeme, rest, 0, false, complaints, false⟩

/-- Reads a file from the significant tokens: the file, and the state in which the parser ends. -/
def readFile (tokens : Significant) : SourceFile × State :=
  (file (grammarUpTo (tokens.lexemes.length + 1))).run .significant |>.run (.start tokens)

end Parser

/-- The outcome of a parse. -/
structure Parsed where
  file : SourceFile
  complaints : List Complaint

/-- Parses a token list. -/
def parseTokens (tokens : List Token) : Parsed :=
  let (file, final) := Parser.readFile (.ofTokens false none tokens)
  ⟨file, final.complaints.reverse⟩

/-- Parses a source. -/
def parse (source : Bytes) : Parsed := parseTokens (lex source)

end Yurin
