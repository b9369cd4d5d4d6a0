import Yurin.Text.Bytes

/-!
# Characters of a byte text

A text is read character by character: a well-formed UTF-8 sequence is one character, and a byte
that starts none is a character of its own, `invalid`. Well-formed means shortest form, no
surrogate and nothing above U+10FFFF.
-/

namespace Yurin

/-- A character of a text: a code point, or a byte that belongs to no well-formed sequence. -/
inductive Rune
  | valid (code : Nat)
  | invalid (byte : UInt8)
  deriving DecidableEq, Repr

/-- A continuation byte, `10xxxxxx`. -/
def isContinuation (b : UInt8) : Bool := 128 ≤ b && b ≤ 191

/-- The six payload bits of a continuation byte. -/
def payload (b : UInt8) : Nat := b.toNat - 128

/-- A two-byte sequence at the head of a text. -/
def decodeTwo? (b : UInt8) : Bytes → Option Nat
  | c :: _ =>
    if 194 ≤ b && b ≤ 223 && isContinuation c then some ((b.toNat - 192) * 64 + payload c)
    else none
  | _ => none

/-- A three-byte sequence at the head of a text. -/
def decodeThree? (b : UInt8) : Bytes → Option Nat
  | c :: d :: _ =>
    let code := (b.toNat - 224) * 4096 + payload c * 64 + payload d
    if 224 ≤ b && b ≤ 239 && isContinuation c && isContinuation d && 2048 ≤ code
        && !(55296 ≤ code && code ≤ 57343) then some code
    else none
  | _ => none

/-- A four-byte sequence at the head of a text. -/
def decodeFour? (b : UInt8) : Bytes → Option Nat
  | c :: d :: e :: _ =>
    let code := (b.toNat - 240) * 262144 + payload c * 4096 + payload d * 64 + payload e
    if 240 ≤ b && b ≤ 244 && isContinuation c && isContinuation d && isContinuation e
        && 65536 ≤ code && code ≤ 1114111 then some code
    else none
  | _ => none

/-- The first character of the text `b :: rest` and how many bytes it takes. -/
def decodeRune (b : UInt8) (rest : Bytes) : Rune × Nat :=
  if b < 128 then (.valid b.toNat, 1)
  else match decodeTwo? b rest with
    | some code => (.valid code, 2)
    | none =>
      match decodeThree? b rest with
      | some code => (.valid code, 3)
      | none =>
        match decodeFour? b rest with
        | some code => (.valid code, 4)
        | none => (.invalid b, 1)

/-- Reads characters, passing over the `skip` bytes that belong to the one read before. -/
def runesFrom : (skip : Nat) → Bytes → List (Rune × Bytes)
  | _, [] => []
  | skip + 1, _ :: rest => runesFrom skip rest
  | 0, b :: rest =>
    let (rune, size) := decodeRune b rest
    (rune, (b :: rest).take size) :: runesFrom (size - 1) rest

/-- The characters of a text, each with its bytes. -/
def runes (text : Bytes) : List (Rune × Bytes) := runesFrom 0 text

/-- The UTF-8 bytes of a code point. -/
def encodeRune (code : Nat) : Bytes := String.utf8EncodeChar (Char.ofNat code)

/-- The UTF-8 bytes of some characters. -/
def encodeChars (chars : List Char) : Bytes := chars.flatMap String.utf8EncodeChar

/-- The bytes of the replacement character U+FFFD. -/
def replacementBytes : Bytes := [239, 191, 189]

namespace Rune

/-- The code point of a character; an invalid byte stands for U+FFFD. -/
def code : Rune → Nat
  | .valid c => c
  | .invalid _ => 0xFFFD

/-- Blank characters: the ASCII ones, U+0085 and the separators of Unicode. -/
def isSpace : Rune → Bool
  | .valid c =>
    (9 ≤ c && c ≤ 13) || c == 32 || c == 0x85 || c == 0xA0 || c == 0x1680
      || (0x2000 ≤ c && c ≤ 0x200A) || c == 0x2028 || c == 0x2029 || c == 0x202F || c == 0x205F
      || c == 0x3000
  | .invalid _ => false

/-- How many UTF-16 units the character takes. -/
def utf16Size (r : Rune) : Nat := if 0x10000 ≤ r.code then 2 else 1

end Rune

namespace Bytes

/-- How many UTF-16 units a text takes. -/
def utf16Length (text : Bytes) : Nat := total ((runes text).map (·.1.utf16Size))

/-- The characters of a text; a byte that belongs to no well-formed sequence gives U+FFFD. -/
def chars (text : Bytes) : List Char := (runes text).map fun (rune, _) => Char.ofNat rune.code

/-- Whether every byte belongs to a well-formed sequence. -/
def isValidUtf8 (text : Bytes) : Bool :=
  (runes text).all fun (rune, _) => match rune with
    | .valid _ => true
    | .invalid _ => false

/-- The number of bytes in the blank characters at the start of a text. -/
def leadingSpace (text : Bytes) : Nat :=
  total (((runes text).takeWhile (·.1.isSpace)).map (·.2.length))

/-- The number of bytes in the blank characters at the end of a text. -/
def trailingSpace (text : Bytes) : Nat :=
  total (((runes text).reverse.takeWhile (·.1.isSpace)).map (·.2.length))

/-- A text without the blanks at its end. -/
def trimEnd (text : Bytes) : Bytes := text.take (text.length - trailingSpace text)

/-- A text without the blanks around it. -/
def trim (text : Bytes) : Bytes := (trimEnd text).drop (leadingSpace (trimEnd text))

end Bytes

end Yurin
