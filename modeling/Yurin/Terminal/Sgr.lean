import Yurin.Text.Bytes

/-!
# Terminal escapes

A terminal changes how it draws text when it reads `ESC[`, numbers with semicolons between them, and
`m`. Text with such parameters is wrapped in an escape that sets them and one that resets them, a
reset for every parameter.
-/

namespace Yurin.Sgr

/-- The escape byte. -/
def escape : UInt8 := 27

/-- The escape sequence of some parameters. -/
def sequence (parameters : List Nat) : Bytes :=
  [escape] ++ utf8 "[" ++ Bytes.join (utf8 ";") (parameters.map natText) ++ utf8 "m"

/-- The parameter that undoes a parameter. Those without a counterpart are undone by zero, which
resets everything. -/
def resetOf : Nat → Nat
  | 1 | 2 => 22
  | 3 => 23
  | 4 => 24
  | 5 | 6 => 25
  | 7 => 27
  | 8 => 28
  | 9 => 29
  | _ => 0

/-- A text drawn with parameters that are reset after it. -/
def wrap (parameters : List Nat) (text : Bytes) : Bytes :=
  sequence parameters ++ text ++ sequence (parameters.map resetOf)

/-- A text drawn with one parameter, after which everything is reset. -/
def shade (parameter : Nat) (text : Bytes) : Bytes := sequence [parameter] ++ text ++ sequence [0]

/-- A text drawn with parameters, if colors are on. -/
def wrapIf (colored : Bool) (parameters : List Nat) (text : Bytes) : Bytes :=
  if colored then wrap parameters text else text

/-- The parameters of a foreground color. -/
def foreground (red green blue : Nat) : List Nat := [38, 2, red, green, blue]

/-- The parameter of bold text. -/
def bold : Nat := 1

/-- The parameter of faint text. -/
def faint : Nat := 2

/-- The parameter of text in italics. -/
def italic : Nat := 3

/-- The parameter of underlined text. -/
def underline : Nat := 4

/-- The parameter of red text. -/
def red : Nat := 31

/-- The parameter of green text. -/
def green : Nat := 32

/-- The parameter of yellow text. -/
def yellow : Nat := 33

/-- The parameter of blue text. -/
def blue : Nat := 34

/-- The parameter of cyan text. -/
def cyan : Nat := 36

/-- The parameter of gray text. -/
def gray : Nat := 90

/-- The parameter of bright red text. -/
def brightRed : Nat := 91

end Yurin.Sgr
