import Yurin.Text.Rune

/-!
# JSON output

Values are written on one line without blanks, or with every item on a line of its own. In strings
the characters that mean something to HTML and the two line separators of Unicode are escaped, and
a byte that is not UTF-8 becomes U+FFFD.
-/

namespace Yurin

/-- A JSON value, as far as output needs them. -/
inductive JsonValue
  | int (n : Int)
  | string (text : Bytes)
  | array (items : List JsonValue)
  | object (fields : List (String × JsonValue))
  /-- A value that has been written already. -/
  | written (text : Bytes)

/-- A character as it stands in a JSON string. -/
def jsonRune : Rune × Bytes → Bytes
  | (.invalid _, _) => replacementBytes
  | (.valid code, bytes) =>
    match code with
    | 8 => utf8 "\\b"
    | 9 => utf8 "\\t"
    | 10 => utf8 "\\n"
    | 12 => utf8 "\\f"
    | 13 => utf8 "\\r"
    | 34 => utf8 "\\\""
    | 92 => utf8 "\\\\"
    | _ =>
      if code < 32 || code == 60 || code == 62 || code == 38 || code == 0x2028
          || code == 0x2029 then
        utf8 "\\u" ++ hexText 4 code
      else bytes

/-- A JSON string. -/
def jsonString (text : Bytes) : Bytes := utf8 "\"" ++ (runes text).flatMap jsonRune ++ utf8 "\""

namespace JsonValue

mutual

/-- A value on one line. -/
def compact : JsonValue → Bytes
  | .int n => intText n
  | .string text => jsonString text
  | .array items => utf8 "[" ++ Bytes.join (utf8 ",") (compactItems items) ++ utf8 "]"
  | .object fields => utf8 "\x7b" ++ Bytes.join (utf8 ",") (compactFields fields) ++ utf8 "\x7d"
  | .written text => text

/-- The items of an array on one line. -/
def compactItems : List JsonValue → List Bytes
  | [] => []
  | item :: rest => item.compact :: compactItems rest

/-- The fields of an object on one line. -/
def compactFields : List (String × JsonValue) → List Bytes
  | [] => []
  | (name, value) :: rest =>
    (jsonString (utf8 name) ++ utf8 ":" ++ value.compact) :: compactFields rest

end

/-- Items between brackets, each on a line that is indented by `depth` levels; nothing stands
between the brackets of an empty list. -/
def bracketed (opening closing : String) (depth : Nat) (items : List Bytes) : Bytes :=
  let line (depth : Nat) : Bytes := lineFeed :: List.replicate (2 * depth) 32
  if items.isEmpty then utf8 opening ++ utf8 closing
  else utf8 opening ++ line depth ++ Bytes.join (utf8 "," ++ line depth) items ++ line (depth - 1)
    ++ utf8 closing

mutual

/-- A value with every item on a line of its own, inside `depth` others. -/
def indented (depth : Nat) : JsonValue → Bytes
  | .int n => intText n
  | .string text => jsonString text
  | .array items => bracketed "[" "]" (depth + 1) (indentedItems (depth + 1) items)
  | .object fields => bracketed "\x7b" "\x7d" (depth + 1) (indentedFields (depth + 1) fields)
  | .written text => text

/-- The items of an array, each for a line of its own. -/
def indentedItems (depth : Nat) : List JsonValue → List Bytes
  | [] => []
  | item :: rest => item.indented depth :: indentedItems depth rest

/-- The fields of an object, each for a line of its own. -/
def indentedFields (depth : Nat) : List (String × JsonValue) → List Bytes
  | [] => []
  | (name, value) :: rest =>
    (jsonString (utf8 name) ++ utf8 ": " ++ value.indented depth) :: indentedFields depth rest

end

end JsonValue

end Yurin
