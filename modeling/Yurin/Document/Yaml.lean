import Yurin.Document

/-!
# YAML documents

The plain part of YAML: mappings and sequences by indentation or in brackets, plain and quoted
scalars, comments, and the marks between documents, of which the first counts. A text without any
document is refused.
-/

namespace Yurin.Yaml

/-- A line: how far it is indented, and what follows. -/
structure Line where
  indent : Nat
  text : List Char
  deriving DecidableEq, Repr

/-! ## Lines -/

/-- Where a scan of a line is: outside of quotes, in single or double quotes, or after a backslash
in double ones. -/
inductive Quoting
  | outside | single | double | escape
  deriving DecidableEq, Repr

/-- Whether a quote after a character opens a quoted scalar. -/
def opensQuote (previous : Char) : Bool :=
  isBlank previous || previous == '[' || previous == '\x7b' || previous == ','

/-- Where a scan is after one more character. -/
def Quoting.next (q : Quoting) (previous c : Char) : Quoting :=
  match q with
  | .outside =>
    if c = '"' && (opensQuote previous || previous == '"') then .double
    else if c = '\'' && (opensQuote previous || previous == '\'') then .single
    else .outside
  | .single => if c = '\'' then .outside else .single
  | .double => if c = '"' then .outside else if c = '\\' then .escape else .double
  | .escape => .double

/-- A line without its comment. `previous` is the character before. -/
def withoutComment : (previous : Char) → Quoting → List Char → List Char
  | _, _, [] => []
  | previous, q, c :: rest =>
    if q = .outside && c = '#' && isBlank previous then []
    else c :: withoutComment c (q.next previous c) rest

/-- A text without the blanks at its end. -/
def trimLine (text : List Char) : List Char :=
  (text.reverse.dropWhile fun c => isBlank c || c == '\r').reverse

/-- The lines that say something; a tab cannot indent them. -/
def linesOf : List (List Char) → Option (List Line)
  | [] => some []
  | raw :: rest =>
    let text := trimLine (withoutComment ' ' .outside raw)
    let content := text.dropWhile (· == ' ')
    match content with
    | [] => linesOf rest
    | c :: _ =>
      if c = '\t' then none
      else (linesOf rest).map (⟨text.length - content.length, content⟩ :: ·)

/-- Whether a line is a mark between documents. -/
def isMark (mark : String) (line : List Char) : Bool :=
  line.head? != some ' ' && trimLine (withoutComment ' ' .outside line) == mark.toList

/-- The lines of the first document, and whether a mark opens it. -/
def firstDocument (lines : List (List Char)) : Bool × List (List Char) :=
  let silent (line : List Char) : Bool := (trimLine (withoutComment ' ' .outside line)).isEmpty
  let (opened, lines) := match lines.dropWhile silent with
    | line :: rest => if isMark "---" line then (true, rest) else (false, line :: rest)
    | [] => (false, [])
  (opened, lines.takeWhile fun line => !isMark "---" line && !isMark "..." line)

/-! ## Scalars -/

/-- The escapes between double quotes. -/
def escapes : Escapes where
  letters :=
    [('0', '\x00'), ('a', '\x07'), ('b', '\x08'), ('t', '\t'), ('\t', '\t'), ('n', '\n'),
     ('v', '\x0b'), ('f', '\x0c'), ('r', '\r'), ('e', '\x1b'), (' ', ' '), ('"', '"'),
     ('\'', '\''), ('/', '/'), ('\\', '\\'), ('N', '\u0085'), ('_', '\u00a0'), ('L', '\u2028'),
     ('P', '\u2029')]
  numbered := [('x', 2), ('u', 4), ('U', 8)]

/-- The rest of a text in single quotes, in which a quote is written twice. -/
def singleRest? : List Char → Option (List Char × List Char)
  | [] => none
  | '\'' :: '\'' :: rest => (singleRest? rest).map fun (text, rest) => ('\'' :: text, rest)
  | '\'' :: rest => some ([], rest)
  | c :: rest => (singleRest? rest).map fun (text, rest) => (c :: text, rest)

/-- A quoted scalar at the start of a text. -/
def quotedScalar? : List Char → Option (List Char × List Char)
  | '"' :: rest => quotedRest? escapes (rest.length + 1) rest
  | '\'' :: rest => singleRest? rest
  | _ => none

/-- Whether a plain scalar can start with a text. -/
def startsPlain : List Char → Bool
  | [] => false
  | c :: rest =>
    if c = '-' || c = '?' || c = ':' then match rest with
      | [] => false
      | next :: _ => !isBlank next
    else !("@`%&*!|>[]\x7b\x7d,#\"'".toList.contains c)

/-- What a plain scalar stands for. -/
def plainScalar (text : List Char) : Document :=
  if spells ["", "~", "null", "Null", "NULL"] text then .nothing else .word text

/-- Whether a text has a colon that divides a key from a value. -/
def hasDivider : List Char → Bool
  | [] => false
  | [c] => c == ':'
  | c :: next :: rest => (c == ':' && isBlank next) || hasDivider (next :: rest)

/-- What stands before and after the first colon that divides a key from a value. -/
def cutDivider? : List Char → Option (List Char × List Char)
  | [] => none
  | [c] => if c = ':' then some ([], []) else none
  | c :: next :: rest =>
    if c = ':' && isBlank next then some ([], rest)
    else (cutDivider? (next :: rest)).map fun (before, after) => (c :: before, after)

/-- The key at the start of a line, and what follows its colon. -/
def key? (text : List Char) : Option (List Char × List Char) :=
  match quotedScalar? text with
  | some (key, rest) =>
    match dropBlanks rest with
    | [':'] => some (key, [])
    | ':' :: c :: rest => if isBlank c then some (key, dropBlanks rest) else none
    | _ => none
  | none =>
    if startsPlain text then
      (cutDivider? text).map fun (key, rest) => (trimLine key, dropBlanks rest)
    else none

/-! ## Values in brackets -/

/-- The bracket depth after a text. -/
def depthAfter : (depth : Int) → (previous : Char) → Quoting → List Char → Int
  | depth, _, _, [] => depth
  | depth, previous, q, c :: rest =>
    let change : Int :=
      if q != .outside then 0
      else if c = '[' || c = '\x7b' then 1
      else if c = ']' || c = '\x7d' then -1
      else 0
    depthAfter (depth + change) c (q.next previous c) rest

/-- A text in brackets with the lines that belong to it, and the lines after. -/
def gather (text : List Char) : List Line → List Char × List Line
  | [] => (text, [])
  | line :: rest =>
    if depthAfter 0 ' ' .outside text ≤ 0 then (text, line :: rest)
    else gather (text ++ [' '] ++ line.text) rest

/-- Whether a character ends a plain scalar in brackets. -/
def endsFlow (c : Char) : Bool := c == ',' || c == '[' || c == ']' || c == '\x7b' || c == '\x7d'

/-- A plain scalar in brackets, up to a sign or a colon that divides. -/
def flowPlain : List Char → List Char × List Char
  | [] => ([], [])
  | c :: rest =>
    let divides := rest.isEmpty || rest.head?.any fun next => isBlank next || endsFlow next
    if endsFlow c || (c == ':' && divides) then ([], c :: rest)
    else
      let (text, rest) := flowPlain rest
      (c :: text, rest)

/-- A scalar in brackets. -/
def flowScalar? (text : List Char) : Option (Document × List Char) :=
  match quotedScalar? text with
  | some (scalar, rest) => some (.text scalar, dropBlanks rest)
  | none =>
    if startsPlain text then
      let (scalar, rest) := flowPlain text
      some (plainScalar (trimLine scalar), dropBlanks rest)
    else none

/-- The text of a key in brackets. -/
def flowKey? (text : List Char) : Option (List Char × List Char) := do
  match ← flowScalar? text with
  | (.text key, rest) => return (key, rest)
  | (.word key, rest) => return (key, rest)
  | _ => none

mutual

/-- A value in brackets. -/
def flowValue? : (fuel : Nat) → List Char → Option (Document × List Char)
  | 0, _ => none
  | fuel + 1, text =>
    match dropBlanks text with
    | '[' :: rest => do
      let (items, rest) ← flowItems? fuel (dropBlanks rest)
      return (.list items, rest)
    | '\x7b' :: rest => do
      let (fields, rest) ← flowFields? fuel (dropBlanks rest)
      return (← Document.record? fields, rest)
    | text => flowScalar? text

/-- The items of a sequence up to its closing bracket. -/
def flowItems? : (fuel : Nat) → List Char → Option (List Document × List Char)
  | 0, _ => none
  | fuel + 1, text =>
    match text with
    | ']' :: rest => some ([], dropBlanks rest)
    | _ => do
      let (item, rest) ← flowValue? fuel text
      match dropBlanks rest with
      | ',' :: rest =>
        let (items, rest) ← flowItems? fuel (dropBlanks rest)
        return (item :: items, rest)
      | ']' :: rest => return ([item], dropBlanks rest)
      | _ => none

/-- The fields of a mapping up to its closing bracket. -/
def flowFields? : (fuel : Nat) → List Char → Option (List (List Char × Document) × List Char)
  | 0, _ => none
  | fuel + 1, text =>
    match text with
    | '\x7d' :: rest => some ([], dropBlanks rest)
    | _ => do
      let (key, rest) ← flowKey? text
      let (value, rest) ← match rest with
        | ':' :: rest =>
          match dropBlanks rest with
          | ',' :: rest => some (.nothing, ',' :: rest)
          | '\x7d' :: rest => some (.nothing, '\x7d' :: rest)
          | rest => flowValue? fuel rest
        | _ => some (.nothing, rest)
      match dropBlanks rest with
      | ',' :: rest =>
        let (fields, rest) ← flowFields? fuel (dropBlanks rest)
        return ((key, value) :: fields, rest)
      | '\x7d' :: rest => return ([(key, value)], dropBlanks rest)
      | _ => none

end

/-! ## Values by indentation -/

/-- A value that starts on a line of its key or dash, and the lines after it. -/
def inline? (text : List Char) (lines : List Line) : Option (Document × List Line) :=
  match text with
  | '[' :: _ | '\x7b' :: _ => do
    let (text, lines) := gather text lines
    let (value, rest) ← flowValue? (text.length + 1) text
    if rest.isEmpty then some (value, lines) else none
  | '"' :: _ | '\'' :: _ => do
    let (scalar, rest) ← quotedScalar? text
    if (dropBlanks rest).isEmpty then some (.text scalar, lines) else none
  | _ => if startsPlain text && !hasDivider text then some (plainScalar text, lines) else none

/-- What follows the dash of an item, and how far it stands from the dash. -/
def dash? : List Char → Option (Nat × List Char)
  | ['-'] => some (1, [])
  | '-' :: ' ' :: rest =>
    let content := dropBlanks rest
    some (2 + (rest.length - content.length), content)
  | _ => none

mutual

/-- A value that is indented by at least some blanks. -/
def block? : (fuel : Nat) → (indent : Nat) → List Line → Option (Document × List Line)
  | 0, _, _ => none
  | _ + 1, _, [] => some (.nothing, [])
  | fuel + 1, indent, line :: rest =>
    if line.indent < indent then some (.nothing, line :: rest)
    else if (dash? line.text).isSome then do
      let (items, rest) ← items? fuel line.indent (line :: rest)
      return (.list items, rest)
    else if (key? line.text).isSome then do
      let (fields, rest) ← fields? fuel line.indent (line :: rest)
      return (← Document.record? fields, rest)
    else inline? line.text rest

/-- The items of a sequence at an indentation. -/
def items? : (fuel : Nat) → (indent : Nat) → List Line → Option (List Document × List Line)
  | 0, _, _ => none
  | _ + 1, _, [] => some ([], [])
  | fuel + 1, indent, line :: rest =>
    if line.indent < indent then some ([], line :: rest)
    else if line.indent != indent then none
    else match dash? line.text with
      | none => some ([], line :: rest)
      | some (width, content) => do
        let (item, rest) ←
          if content.isEmpty then block? fuel (indent + 1) rest
          else block? fuel (indent + 1) (⟨indent + width, content⟩ :: rest)
        let (items, rest) ← items? fuel indent rest
        return (item :: items, rest)

/-- The fields of a mapping at an indentation. A sequence under a key may stand as far left as the
key. -/
def fields? :
    (fuel : Nat) → (indent : Nat) → List Line → Option (List (List Char × Document) × List Line)
  | 0, _, _ => none
  | _ + 1, _, [] => some ([], [])
  | fuel + 1, indent, line :: rest =>
    if line.indent < indent then some ([], line :: rest)
    else if line.indent != indent || (dash? line.text).isSome then none
    else do
      let (key, text) ← key? line.text
      let (value, rest) ←
        if !text.isEmpty then inline? text rest
        else match rest with
          | next :: _ =>
            if next.indent = indent && (dash? next.text).isSome then do
              let (items, rest) ← items? fuel indent rest
              some (.list items, rest)
            else block? fuel (indent + 1) rest
          | [] => some (.nothing, [])
      let (fields, rest) ← fields? fuel indent rest
      return ((key, value) :: fields, rest)

end

/-- Whether a character can stand in a text: tabs and line ends are the only control characters that
can, apart from U+0085. -/
def isAllowed (c : Char) : Bool :=
  let code := c.toNat
  c == '\t' || c == '\n' || c == '\r' || (0x20 ≤ code && code ≤ 0x7E) || code == 0x85
    || (0xA0 ≤ code && code ≤ 0xFFFD) || 0x10000 ≤ code

/-- The first document of a text. -/
def parse? (content : Bytes) : Option Document := do
  let text := withoutByteOrderMark content
  if !(← charsOf? text).all isAllowed then none
  let (opened, raw) := firstDocument ((text.splitOn lineFeed).map Bytes.chars)
  let lines ← linesOf raw
  if lines.isEmpty && !opened then none
  match ← block? (2 * text.length + 4) 0 lines with
  | (document, []) => return document
  | _ => none

end Yurin.Yaml
