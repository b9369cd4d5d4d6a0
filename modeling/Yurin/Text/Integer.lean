import Yurin.Text.Ascii
import Yurin.Text.Bytes

/-!
# Reading integers

Integers of 64 bits are read in decimal, or in the base that their first digits announce: `0x`,
`0o`, `0b`, or a leading zero for base eight. With an announced base, digits may be grouped by
single underscores.
-/

namespace Yurin

/-- Why a text is not an integer. -/
inductive IntegerFault
  | invalidSyntax | outOfRange
  deriving DecidableEq, Repr

namespace IntegerFault

/-- The text of a fault. -/
def message : IntegerFault → String
  | .invalidSyntax => "invalid syntax"
  | .outOfRange => "value out of range"

end IntegerFault

/-- The value of a digit in bases up to thirty-six. -/
def digitValue? (b : UInt8) : Option Nat :=
  let b := Bytes.lowerByte b
  if isDigit b then some (b.toNat - 48)
  else if 97 ≤ b && b ≤ 122 then some (b.toNat - 87)
  else none

/-- The least number that takes more than 64 bits. -/
def wordLimit : Nat := 0x10000000000000000

/-- The least number that takes more than 63 bits. -/
def signLimit : Nat := 0x8000000000000000

/-- Reads digits into a number below `wordLimit`; the first fault counts. -/
def readDigits (base : Nat) (grouped : Bool) : (value : Nat) → Bytes → Except IntegerFault Nat
  | value, [] => .ok value
  | value, b :: rest =>
    if grouped && b == Ascii.underscore then readDigits base grouped value rest
    else match digitValue? b with
      | none => .error .invalidSyntax
      | some digit =>
        if base ≤ digit then .error .invalidSyntax
        else
          let value := value * base + digit
          if wordLimit ≤ value then .error .outOfRange else readDigits base grouped value rest

/-- Puts a sign in front of a magnitude, within 64 bits. -/
def signed (negative : Bool) (magnitude : Nat) : Except IntegerFault Int :=
  if negative then
    if signLimit < magnitude then .error .outOfRange else .ok (-(magnitude : Int))
  else if signLimit ≤ magnitude then .error .outOfRange else .ok magnitude

/-- Whether a text is negative, and the text without its sign. -/
def takeSign : Bytes → Bool × Bytes
  | Ascii.plus :: rest => (false, rest)
  | Ascii.hyphen :: rest => (true, rest)
  | text => (false, text)

/-- A decimal integer. -/
def decimalInteger (text : Bytes) : Except IntegerFault Int := do
  let (negative, digits) := takeSign text
  if digits.isEmpty then throw .invalidSyntax
  signed negative (← readDigits 10 false 0 digits)

/-- The base that a number announces, and its digits. -/
def announcedBase (text : Bytes) : Nat × Bytes :=
  match text with
  | Ascii.zero :: mark :: digit :: rest =>
    if Bytes.lower [mark] = utf8 "x" then (16, digit :: rest)
    else if Bytes.lower [mark] = utf8 "o" then (8, digit :: rest)
    else if Bytes.lower [mark] = utf8 "b" then (2, digit :: rest)
    else (8, mark :: digit :: rest)
  | Ascii.zero :: rest => (8, rest)
  | _ => (10, text)

/-- Whether every underscore stands between digits; the mark of a base counts as a digit. -/
def groupedWell (base : Nat) (text : Bytes) : Bool :=
  let digits := (if base = 10 then [] else [Ascii.zero]) ++ (announcedBase text).2
  let pieces := digits.splitOn Ascii.underscore
  pieces.all (!·.isEmpty)

/-- An integer in the base that it announces. -/
def announcedInteger (text : Bytes) : Except IntegerFault Int := do
  let (negative, unsigned) := takeSign text
  if unsigned.isEmpty then throw .invalidSyntax
  let (base, digits) := announcedBase unsigned
  let magnitude ← readDigits base true 0 digits
  if !groupedWell base unsigned then throw .invalidSyntax
  signed negative magnitude

end Yurin
