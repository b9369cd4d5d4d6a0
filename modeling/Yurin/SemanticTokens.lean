import Yurin.Position
import Yurin.Style.Theme
import Yurin.Text.Rune

/-!
# Semantic tokens

Editors take highlights as tokens that lie on one line each and do not overlap, with lines and
columns from zero, columns in UTF-16 units. `ofHighlights` flattens highlights into such tokens: of
two that overlap the later one wins, and ranges are cut at line breaks. `encode` writes the sorted
tokens as numbers, five for each, with every position relative to the token before.
-/

namespace Yurin

/-- The types of semantic tokens, numbered in declaration order. -/
inductive TokenType
  | keyword | string | number | comment | operator | class_ | interface | type | function
  | property | parameter | typeParameter
  deriving DecidableEq, Repr

namespace TokenType

/-- Every token type. -/
def all : List TokenType :=
  [.keyword, .string, .number, .comment, .operator, .class_, .interface, .type, .function,
   .property, .parameter, .typeParameter]

/-- The name of a token type. -/
def name : TokenType → String
  | .keyword => "keyword"
  | .string => "string"
  | .number => "number"
  | .comment => "comment"
  | .operator => "operator"
  | .class_ => "class"
  | .interface => "interface"
  | .type => "type"
  | .function => "function"
  | .property => "property"
  | .parameter => "parameter"
  | .typeParameter => "typeParameter"

/-- The number of a token type. -/
def code (t : TokenType) : UInt32 := (all.idxOf t).toUInt32

end TokenType

/-- The names of the token modifiers; modifier numbers index into them. -/
def tokenModifierNames : List String := ["declaration"]

/-- The token type and the modifiers of a category; errors are left to diagnostics. -/
def tokenTypeOf? : Category → Option (TokenType × List UInt32)
  | .keyword => some (.keyword, [])
  | .stringLiteral => some (.string, [])
  | .numberLiteral => some (.number, [])
  | .lineComment | .blockComment => some (.comment, [])
  | .colon | .dot | .safeDot | .comma | .bracket | .paren | .square | .operator | .arrow
  | .nullableMarker | .nonNull | .reference => some (.operator, [])
  | .dataDeclaration => some (.class_, [])
  | .traitDeclaration => some (.interface, [])
  | .effectDeclaration => some (.type, [])
  | .functionDeclaration => some (.function, [0])
  | .functionCall => some (.function, [])
  | .propertyDeclaration => some (.property, [])
  | .namedValueArgument | .parameter => some (.parameter, [])
  | .typeParameter => some (.typeParameter, [])
  | .none | .error | .unlisted _ => none

/-- A token on one line: positions and length in UTF-16 units, type and modifiers by number. -/
structure SemanticToken where
  line : UInt32
  start : UInt32
  length : UInt32
  type : UInt32
  modifiers : List UInt32
  deriving DecidableEq, Repr

namespace SemanticToken

/-! ## Flattening -/

/-- A range with its place among the highlights and its token type. -/
structure Span where
  start : Int
  stop : Int
  order : Nat
  type : TokenType
  modifiers : List UInt32
  deriving DecidableEq, Repr

/-- The span of a highlight that is not empty and whose category has a token type. -/
def span? (order : Nat) (h : Highlight) : Option Span :=
  if h.stop ≤ h.start then none
  else (tokenTypeOf? h.category).map fun (t, ms) => ⟨h.start, h.stop, order, t, ms⟩

/-- The spans of highlights, sorted by start; equal starts keep their order. -/
def spans (highlights : List Highlight) : List Span :=
  ((highlights.mapIdx span?).filterMap id).mergeSort fun a b => a.start ≤ b.start

/-- The spans kept after one more; `kept` has the last one first. The new span takes the place of
those it overlaps, unless one of them came later among the highlights. -/
def keep (kept : List Span) (s : Span) : List Span :=
  let overlapped := kept.takeWhile fun k => s.start < k.stop
  if overlapped.any fun k => s.order < k.order then kept
  else s :: kept.drop overlapped.length

/-- The spans that remain, in order. -/
def keptSpans (highlights : List Highlight) : List Span :=
  ((spans highlights).foldl keep []).reverse

/-- The part of a span on a line, if there is any. -/
def onLine? (source : Bytes) (index : LineIndex) (s : Span) (line : Nat) : Option SemanticToken :=
  let (lineStart, lineStop) := index.lineBounds line
  let first := (max s.start lineStart).toNat
  let last := (min s.stop lineStop).toNat
  if last ≤ first then none
  else some {
    line := (line - 1).toUInt32
    start := (source.slice lineStart first).utf16Length.toUInt32
    length := (source.slice first last).utf16Length.toUInt32
    type := s.type.code
    modifiers := s.modifiers }

/-- The tokens of a span: one for each line that it has bytes on. -/
def ofSpan (source : Bytes) (index : LineIndex) (s : Span) : List SemanticToken :=
  let first := (index.lineColumn s.start).1
  let last := (index.lineColumn (s.stop - 1)).1
  (List.range' first (last + 1 - first)).filterMap (onLine? source index s)

/-- The tokens of highlights. -/
def ofHighlights (source : Bytes) (highlights : List Highlight) : List SemanticToken :=
  let index := LineIndex.ofText source
  (keptSpans highlights).flatMap (ofSpan source index)

/-! ## Encoding -/

/-- The order of tokens by line and start. -/
def le (a b : SemanticToken) : Bool := a.line < b.line || (a.line == b.line && a.start ≤ b.start)

/-- The bit of a modifier; modifiers above 31 have none. -/
def modifierBit (m : UInt32) : UInt32 := if m < 32 then (1 : UInt32) <<< m else 0

/-- The bits of modifiers. -/
def modifierBits (ms : List UInt32) : UInt32 := ms.foldl (fun bits m => bits ||| modifierBit m) 0

/-- The numbers of sorted tokens, after a token at `line` and `start`. -/
def deltas : (line start : UInt32) → List SemanticToken → List UInt32
  | _, _, [] => []
  | line, start, t :: rest =>
    let down := t.line - line
    let across := if down = 0 then t.start - start else t.start
    [down, across, t.length, t.type, modifierBits t.modifiers] ++ deltas t.line t.start rest

/-- The numbers of tokens, which are sorted first. -/
def encode (tokens : List SemanticToken) : List UInt32 := deltas 0 0 (tokens.mergeSort le)

/-- The tokens that start on a line of a range, both ends included. -/
def onLines (first last : Int) (tokens : List SemanticToken) : List SemanticToken :=
  tokens.filter fun t => first ≤ t.line.toNat && (t.line.toNat : Int) ≤ last

end SemanticToken

end Yurin
