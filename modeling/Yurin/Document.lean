import Yurin.Text.Rune

/-!
# Documents

A document is what a data file says: texts in quotes, bare words, lists, and records of named
fields. What a bare word means is for the reader of the field to decide.
-/

namespace Yurin

/-- The content of a data file. -/
inductive Document
  | nothing
  | text (text : List Char)
  | word (text : List Char)
  | list (items : List Document)
  | record (fields : List (List Char × Document))
  deriving Repr

namespace Document

/-- Whether some names are all different. -/
def distinct : List (List Char) → Bool
  | [] => true
  | name :: rest => !rest.contains name && distinct rest

/-- A record of some fields; no field can come twice. -/
def record? (fields : List (List Char × Document)) : Option Document :=
  if distinct (fields.map (·.1)) then some (.record fields) else none

end Document

/-- The characters of a data file, which has to be valid UTF-8. -/
def charsOf? (content : Bytes) : Option (List Char) :=
  if content.isValidUtf8 then some content.chars else none

/-- A content without the mark of byte order at its start. -/
def withoutByteOrderMark (content : Bytes) : Bytes :=
  (Bytes.dropHead? [0xEF, 0xBB, 0xBF] content).getD content

/-- Whether characters spell one of some words. -/
def spells (words : List String) (text : List Char) : Bool := words.any fun w => w.toList == text

/-- A blank or a tab. -/
def isBlank (c : Char) : Bool := c == ' ' || c == '\t'

/-- A text without the blanks and tabs at its start. -/
def dropBlanks (text : List Char) : List Char := text.dropWhile isBlank

/-- The code point that some hexadecimal digits spell, if it is one. -/
def codePoint? (digits : List Char) : Option Char := do
  let values ← digits.mapM fun c => if c.toNat < 128 then hexValue? c.toUInt8 else none
  let code := values.foldl (fun n d => n * 16 + d) 0
  if code < 0x110000 && !(0xD800 ≤ code && code < 0xE000) then some (Char.ofNat code) else none

/-- The escapes of a format: those that are one letter, with their meanings, and those that are a
letter before the hexadecimal digits of a code point, with the number of digits. -/
structure Escapes where
  letters : List (Char × Char)
  numbered : List (Char × Nat)

/-- The text that an escape after a backslash stands for, and what follows it. -/
def escaped? (escapes : Escapes) (text : List Char) : Option (Char × List Char) :=
  match text with
  | [] => none
  | c :: rest =>
    match escapes.numbered.lookup c with
    | some width =>
      if rest.length < width then none
      else (codePoint? (rest.take width)).map fun c => (c, rest.drop width)
    | none => (escapes.letters.lookup c).map fun c => (c, rest)

/-- The rest of a text in double quotes, up to the closing one, and what follows it. Escapes are
resolved; control characters other than tabs cannot stand in it. -/
def quotedRest? (escapes : Escapes) :
    (fuel : Nat) → List Char → Option (List Char × List Char)
  | 0, _ => none
  | _ + 1, [] => none
  | _ + 1, '"' :: rest => some ([], rest)
  | fuel + 1, '\\' :: rest => do
    let (c, rest) ← escaped? escapes rest
    let (text, rest) ← quotedRest? escapes fuel rest
    return (c :: text, rest)
  | fuel + 1, c :: rest =>
    if c < ' ' && c != '\t' then none
    else (quotedRest? escapes fuel rest).map fun (text, rest) => (c :: text, rest)

end Yurin
