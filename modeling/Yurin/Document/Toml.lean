import Yurin.Document

/-!
# TOML documents

Keys with values, and arrays of tables under `[[name]]`. Values are strings, bare words, arrays and
inline tables. Tables under `[name]` and dotted keys are refused.
-/

namespace Yurin.Toml

/-- The escapes between double quotes. -/
def escapes : Escapes where
  letters :=
    [('b', '\x08'), ('t', '\t'), ('n', '\n'), ('f', '\x0c'), ('r', '\r'), ('e', '\x1b'), ('"', '"'),
     ('\\', '\\')]
  numbered := [('u', 4), ('U', 8)]

/-- A text without the comment at its start. -/
def dropComment (text : List Char) : List Char :=
  match text with
  | '#' :: _ => text.dropWhile (· != '\n')
  | _ => text

/-- A text without the blanks, line ends and comments at its start. -/
def dropSpace : (fuel : Nat) → List Char → List Char
  | 0, text => text
  | fuel + 1, text =>
    match dropBlanks text with
    | '\n' :: rest => dropSpace fuel rest
    | '\r' :: '\n' :: rest => dropSpace fuel rest
    | '#' :: rest => dropSpace fuel (dropComment ('#' :: rest))
    | text => text

/-- What follows the end of a line, after blanks and a comment. -/
def lineEnd? (text : List Char) : Option (List Char) :=
  match dropComment (dropBlanks text) with
  | [] => some []
  | '\n' :: rest => some rest
  | '\r' :: '\n' :: rest => some rest
  | _ => none

/-- A string in quotes of either kind. -/
def string? : List Char → Option (List Char × List Char)
  | '"' :: rest => quotedRest? escapes (rest.length + 1) rest
  | '\'' :: rest =>
    let text := rest.takeWhile fun c => c != '\'' && (' ' ≤ c || c == '\t')
    match rest.drop text.length with
    | '\'' :: rest => some (text, rest)
    | _ => none
  | _ => none

/-- What follows a line end at the start of a text. -/
def dropLineEnd : List Char → List Char
  | '\n' :: rest => rest
  | '\r' :: '\n' :: rest => rest
  | text => text

/-- Whether a character can stand in a string of several lines: tabs and line ends are the only
control characters that can. -/
def isAllowed (c : Char) : Bool := (' ' ≤ c && c != '\x7f') || c == '\t' || c == '\n' || c == '\r'

/-- What follows a backslash at the end of a line: the next text that is not blank. -/
def afterLineBackslash? (text : List Char) : Option (List Char) :=
  match dropLineEnd (dropBlanks text) with
  | rest =>
    if rest.length == (dropBlanks text).length then none
    else some (rest.dropWhile fun c => isBlank c || c == '\n' || c == '\r')

/-- The rest of a string of several lines, up to three quotes, and what follows it; up to two quotes
right before those belong to the string. Escapes count only between double quotes. -/
def linesRest? (quote : Char) : (fuel : Nat) → List Char → Option (List Char × List Char)
  | 0, _ => none
  | _ + 1, [] => none
  | fuel + 1, c :: rest =>
    if c = quote && rest.take 2 == [quote, quote] then
      let extra := ((rest.drop 2).takeWhile (· == quote)).length
      if 2 < extra then none else some (List.replicate extra quote, rest.drop (2 + extra))
    else if c = '\\' && quote = '"' then
      match afterLineBackslash? rest with
      | some rest => linesRest? quote fuel rest
      | none => do
        let (c, rest) ← escaped? escapes rest
        let (text, rest) ← linesRest? quote fuel rest
        return (c :: text, rest)
    else if isAllowed c then (linesRest? quote fuel rest).map fun (text, rest) => (c :: text, rest)
    else none

/-- A text in quotes of any kind; a line end right after three quotes does not count. -/
def text? (text : List Char) : Option (List Char × List Char) :=
  match text with
  | '"' :: '"' :: '"' :: rest => linesRest? '"' text.length (dropLineEnd rest)
  | '\'' :: '\'' :: '\'' :: rest => linesRest? '\'' text.length (dropLineEnd rest)
  | _ => string? text

/-- A character of a bare key. -/
def isKeyChar (c : Char) : Bool := c.isAlphanum || c == '_' || c == '-'

/-- A key. -/
def key? (text : List Char) : Option (List Char × List Char) :=
  match string? text with
  | some (key, rest) => some (key, dropBlanks rest)
  | none =>
    let key := text.takeWhile isKeyChar
    if key.isEmpty then none else some (key, dropBlanks (text.drop key.length))

/-- A character of a bare word. -/
def isBareChar (c : Char) : Bool := isKeyChar c || c == '+' || c == '.' || c == ':'

mutual

/-- A value. -/
def value? : (fuel : Nat) → List Char → Option (Document × List Char)
  | 0, _ => none
  | fuel + 1, text =>
    match text with
    | '[' :: rest => do
      let (items, rest) ← items? fuel rest
      return (.list items, rest)
    | '\x7b' :: rest => do
      let (fields, rest) ← fields? fuel (dropBlanks rest)
      return (← Document.record? fields, rest)
    | '"' :: _ | '\'' :: _ => (text? text).map fun (text, rest) => (.text text, rest)
    | _ =>
      let word := text.takeWhile isBareChar
      if word.isEmpty then none else some (.word word, text.drop word.length)

/-- The items of an array up to its closing bracket. -/
def items? : (fuel : Nat) → List Char → Option (List Document × List Char)
  | 0, _ => none
  | fuel + 1, text =>
    match dropSpace text.length text with
    | ']' :: rest => some ([], rest)
    | text => do
      let (item, rest) ← value? fuel text
      match dropSpace rest.length rest with
      | ',' :: rest =>
        let (items, rest) ← items? fuel rest
        return (item :: items, rest)
      | ']' :: rest => return ([item], rest)
      | _ => none

/-- The fields of an inline table up to its closing bracket. -/
def fields? : (fuel : Nat) → List Char → Option (List (List Char × Document) × List Char)
  | 0, _ => none
  | fuel + 1, text =>
    match text with
    | '\x7d' :: rest => some ([], rest)
    | _ => do
      let (key, rest) ← key? text
      match rest with
      | '=' :: rest =>
        let (value, rest) ← value? fuel (dropBlanks rest)
        match dropBlanks rest with
        | ',' :: rest =>
          match dropBlanks rest with
          | '\x7d' :: _ => none
          | rest =>
            let (fields, rest) ← fields? fuel rest
            return ((key, value) :: fields, rest)
        | '\x7d' :: rest => return ([(key, value)], rest)
        | _ => none
      | _ => none

end

/-- The table that keys belong to: the fields of the document, or those of the last table of an
array. -/
structure State where
  fields : List (List Char × Document)
  arrays : List (List Char × List (List (List Char × Document)))
  current : Option (List Char)

/-- Adds a field to the current table. -/
def State.add (s : State) (key : List Char) (value : Document) : State :=
  match s.current with
  | none => { s with fields := s.fields ++ [(key, value)] }
  | some name =>
    { s with arrays := s.arrays.map fun (other, tables) =>
      if other == name then
        (other, tables.dropLast ++ [tables.getLast?.getD [] ++ [(key, value)]])
      else (other, tables) }

/-- Opens a new table of an array. -/
def State.append (s : State) (name : List Char) : State :=
  let arrays :=
    if s.arrays.any (·.1 == name) then
      s.arrays.map fun (other, tables) =>
        if other == name then (other, tables ++ [[]]) else (other, tables)
    else s.arrays ++ [(name, [[]])]
  { s with arrays, current := some name }

/-- Reads statements. -/
def statements? : (fuel : Nat) → State → List Char → Option State
  | 0, _, _ => none
  | fuel + 1, s, text =>
    match dropSpace text.length text with
    | [] => some s
    | '[' :: '[' :: rest => do
      let (name, rest) ← key? (dropBlanks rest)
      match rest with
      | ']' :: ']' :: rest => statements? fuel (s.append name) (← lineEnd? rest)
      | _ => none
    | text => do
      let (key, rest) ← key? text
      match rest with
      | '=' :: rest =>
        let (value, rest) ← value? (text.length + 1) (dropBlanks rest)
        statements? fuel (s.add key value) (← lineEnd? rest)
      | _ => none

/-- The document in a text. -/
def parse? (content : Bytes) : Option Document := do
  let text ← charsOf? content
  let s ← statements? (text.length + 1) ⟨[], [], none⟩ text
  let arrays ← s.arrays.mapM fun (name, tables) => do
    return (name, Document.list (← tables.mapM Document.record?))
  Document.record? (s.fields ++ arrays)

end Yurin.Toml
