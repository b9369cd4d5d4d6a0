import Yurin.Text.Quoted

/-!
# When output is colored

Colors are always on, always off, or on when the output is a terminal.
-/

namespace Yurin

/-- When output is colored. -/
inductive ColorMode
  | auto | always | never
  deriving DecidableEq, Repr

/-- A text that names no color mode. -/
structure UnknownColorMode where
  text : Bytes
  deriving DecidableEq, Repr

/-- The text of the error. -/
def UnknownColorMode.message (e : UnknownColorMode) : Bytes :=
  utf8 "unknown color mode " ++ quoted e.text ++ utf8 " (want auto, always or never)"

namespace ColorMode

/-- The name of a color mode. -/
def name : ColorMode → String
  | .auto => "auto"
  | .always => "always"
  | .never => "never"

/-- The color mode with a name, in capitals or not. -/
def parse (text : Bytes) : Except UnknownColorMode ColorMode :=
  match [ColorMode.auto, .always, .never].find? fun m => utf8 m.name == text.lower with
  | some m => .ok m
  | none => .error ⟨text⟩

/-- Whether output is colored, to a terminal or not. -/
def enabled (m : ColorMode) (terminal : Bool) : Bool :=
  match m with
  | .auto => terminal
  | .always => true
  | .never => false

end ColorMode

end Yurin
