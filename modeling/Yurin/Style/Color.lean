import Yurin.Text.Quoted

/-!
# Colors

A color is a 32-bit number, alpha in the highest byte, then red, green and blue; zero means that no
color is set. It is written `#RRGGBB` when it is opaque and `#AARRGGBB` otherwise.
-/

namespace Yurin

/-- A color. -/
structure Color where
  argb : UInt32
  deriving DecidableEq, Repr, Inhabited

/-- Why a text is not a color. -/
inductive ColorError
  /-- The text has neither six nor eight digits. -/
  | length (text : Bytes)
  /-- One of the digits, which are given with alpha in front, is not hexadecimal. -/
  | digit (text : Bytes) (digits : Bytes)
  deriving DecidableEq, Repr

namespace ColorError

/-- The text of a color error. -/
def message : ColorError → Bytes
  | .length text => utf8 "invalid color " ++ quoted text ++ utf8 ": want #RRGGBB or #AARRGGBB"
  | .digit text digits =>
    utf8 "invalid color " ++ quoted text ++ utf8 ": strconv.ParseUint: parsing " ++ quoted digits
      ++ utf8 ": invalid syntax"

end ColorError

namespace Color

/-- The color that is not set. -/
def unset : Color := ⟨0⟩

/-- Whether a color is set. -/
def isSet (c : Color) : Bool := c.argb != 0

/-- The alpha channel. -/
def alpha (c : Color) : UInt8 := (c.argb >>> 24).toUInt8

/-- The red channel. -/
def red (c : Color) : UInt8 := (c.argb >>> 16).toUInt8

/-- The green channel. -/
def green (c : Color) : UInt8 := (c.argb >>> 8).toUInt8

/-- The blue channel. -/
def blue (c : Color) : UInt8 := c.argb.toUInt8

/-- A text with the ASCII small letters made capitals. -/
def upper (text : Bytes) : Bytes := text.map fun b => if 97 ≤ b ∧ b ≤ 122 then b - 32 else b

/-- The color as it is written. -/
def text (c : Color) : Bytes :=
  utf8 "#" ++ upper (hexText (if c.alpha = 0xFF then 6 else 8) c.argb.toNat)

/-- Reads a color. Blanks around it and one `#` in front do not count, and six digits stand for an
opaque color. -/
def parse (source : Bytes) : Except ColorError Color :=
  let trimmed := source.trim
  let digits := (Bytes.dropHead? (utf8 "#") trimmed).getD trimmed
  let full := if digits.length = 6 then utf8 "FF" ++ digits else digits
  if full.length = 8 then
    match hexNumber? full with
    | some n => .ok ⟨n.toUInt32⟩
    | none => .error (.digit source full)
  else .error (.length source)

end Color

end Yurin
