import Yurin.Text.Printable
import Yurin.Text.Rune

/-!
# Quoted text in messages

Messages quote texts that come from outside in double quotes, with a backslash escape for every
character that would not show: named ones where there is a name, `\x` for other ASCII controls and
for bytes that are not UTF-8, `\u` and `\U` for the rest.
-/

namespace Yurin

/-- A character as it stands between quotes. -/
def quotedRune : Rune × Bytes → Bytes
  | (.invalid byte, _) => utf8 "\\x" ++ hexText 2 byte.toNat
  | (.valid code, bytes) =>
    match code with
    | 7 => utf8 "\\a"
    | 8 => utf8 "\\b"
    | 9 => utf8 "\\t"
    | 10 => utf8 "\\n"
    | 11 => utf8 "\\v"
    | 12 => utf8 "\\f"
    | 13 => utf8 "\\r"
    | 34 => utf8 "\\\""
    | 92 => utf8 "\\\\"
    | _ =>
      if isPrintable code then bytes
      else if code < 128 then utf8 "\\x" ++ hexText 2 code
      else if code < 0x10000 then utf8 "\\u" ++ hexText 4 code
      else utf8 "\\U" ++ hexText 8 code

/-- A text in double quotes. -/
def quoted (text : Bytes) : Bytes := utf8 "\"" ++ (runes text).flatMap quotedRune ++ utf8 "\""

end Yurin
