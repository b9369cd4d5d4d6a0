/-!
# Text as bytes

Sources, names, messages and output are byte sequences, because a source need not be valid UTF-8
and every offset and column of this library counts bytes. `utf8` gives the bytes of a string
literal; the rest are the few text operations that the other modules share.
-/

namespace Yurin

/-- A text: its bytes, valid UTF-8 or not. -/
abbrev Bytes := List UInt8

/-- The UTF-8 bytes of a string. -/
def utf8 (s : String) : Bytes := s.toList.flatMap String.utf8EncodeChar

/-- The line feed, which ends a line. -/
def lineFeed : UInt8 := 10

/-- The decimal digits of a natural number. -/
def natText (n : Nat) : Bytes := (Nat.toDigits 10 n).map Char.toUInt8

/-- An integer in decimal, with a minus sign in front of a negative one. -/
def intText : Int → Bytes
  | .ofNat n => natText n
  | .negSucc n => 45 :: natText (n + 1)

/-- The sum of some numbers. -/
def total (numbers : List Nat) : Nat := numbers.foldr (· + ·) 0

namespace Bytes

/-- The parts in order, with `sep` between neighbours. -/
def join (sep : Bytes) : List Bytes → Bytes
  | [] => []
  | [part] => part
  | part :: rest => part ++ sep ++ join sep rest

/-- The pieces of a text between the occurrences of one byte; there is always at least one. -/
def splitOn (sep : UInt8) : Bytes → List Bytes
  | [] => [[]]
  | b :: rest =>
    match splitOn sep rest with
    | [] => [[b]]
    | piece :: pieces => if b = sep then [] :: piece :: pieces else (b :: piece) :: pieces

/-- What stands before and after the first place where a byte occurs. -/
def cut? (sep : UInt8) : Bytes → Option (Bytes × Bytes)
  | [] => none
  | b :: rest =>
    if b = sep then some ([], rest)
    else (cut? sep rest).map fun (before, after) => (b :: before, after)

/-- What stands before and after the last place where a byte occurs. -/
def cutLast? (sep : UInt8) (text : Bytes) : Option (Bytes × Bytes) :=
  (cut? sep text.reverse).map fun (after, before) => (before.reverse, after.reverse)

/-- What stands before and after the first occurrence of a text. -/
def cutAt? (sep : Bytes) : Bytes → Option (Bytes × Bytes)
  | [] => if sep.isEmpty then some ([], []) else none
  | b :: rest =>
    if sep.isPrefixOf (b :: rest) then some ([], (b :: rest).drop sep.length)
    else (cutAt? sep rest).map fun (before, after) => (b :: before, after)

/-- What follows `head`, when the text begins with it. -/
def dropHead? (head : Bytes) (text : Bytes) : Option Bytes :=
  if head.isPrefixOf text then some (text.drop head.length) else none

/-- A byte with the ASCII capitals made small. -/
def lowerByte (b : UInt8) : UInt8 := if 65 ≤ b ∧ b ≤ 90 then b + 32 else b

/-- A text with the ASCII capitals made small. -/
def lower (text : Bytes) : Bytes := text.map lowerByte

/-- Byte order, in which a proper beginning comes first. -/
def le : Bytes → Bytes → Bool
  | [], _ => true
  | _ :: _, [] => false
  | a :: as, b :: bs => a < b || (a == b && le as bs)

/-- The bytes `[start, stop)` of a text. -/
def slice (text : Bytes) (start stop : Nat) : Bytes := (text.take stop).drop start

end Bytes

/-- An ASCII decimal digit. -/
def isDigit (b : UInt8) : Bool := 48 ≤ b && b ≤ 57

/-- An ASCII letter. -/
def isLetter (b : UInt8) : Bool := (65 ≤ b && b ≤ 90) || (97 ≤ b && b ≤ 122)

/-- An ASCII letter, digit or underscore. -/
def isWordByte (b : UInt8) : Bool := isLetter b || isDigit b || b == 95

/-- The value of a hexadecimal digit. -/
def hexValue? (b : UInt8) : Option Nat :=
  if isDigit b then some (b.toNat - 48)
  else if 97 ≤ b && b ≤ 102 then some (b.toNat - 87)
  else if 65 ≤ b && b ≤ 70 then some (b.toNat - 55)
  else none

/-- The hexadecimal digit of a value below sixteen, small letters. -/
def hexDigit (n : Nat) : UInt8 := if n < 10 then (48 + n).toUInt8 else (87 + n).toUInt8

/-- The `width` lowest hexadecimal digits of a number. -/
def hexText : (width : Nat) → Nat → Bytes
  | 0, _ => []
  | width + 1, n => hexText width (n / 16) ++ [hexDigit (n % 16)]

/-- The number that hexadecimal digits stand for. -/
def hexNumber? (digits : Bytes) : Option Nat :=
  digits.foldlM (fun n b => (hexValue? b).map (n * 16 + ·)) 0

end Yurin
