import Yurin.Style.Category
import Yurin.Style.Color

/-!
# Styles, highlights and themes

A theme maps categories to styles. `Theme.highlight?` is the only way in which the passes make
highlights, so every highlight is a non-empty range whose style is the theme's for its category and
changes something.
-/

namespace Yurin

/-- How a span of text is drawn; the underline has a color of its own. -/
structure Style where
  color : Color
  bold : Bool
  italic : Bool
  underline : Color
  deriving DecidableEq, Repr, Inhabited

namespace Style

/-- The style that changes nothing. -/
def plain : Style := ⟨.unset, false, false, .unset⟩

/-- Whether a style changes nothing. -/
def isPlain (s : Style) : Bool := !s.color.isSet && !s.bold && !s.italic && !s.underline.isSet

/-- A style with only a color. -/
def colored (argb : UInt32) : Style := ⟨⟨argb⟩, false, false, .unset⟩

/-- A style with a color, in italics. -/
def slanted (argb : UInt32) : Style := ⟨⟨argb⟩, false, true, .unset⟩

/-- A style with only an underline. -/
def underlined (argb : UInt32) : Style := ⟨.unset, false, false, ⟨argb⟩⟩

end Style

/-- A styled range `[start, stop)` of bytes. -/
structure Highlight where
  start : Int
  stop : Int
  category : Category
  style : Style
  deriving DecidableEq, Repr

namespace Highlight

/-- The number of bytes in the range. -/
def length (h : Highlight) : Int := h.stop - h.start

/-- The category and the range. -/
def text (h : Highlight) : Bytes :=
  utf8 h.category.name ++ utf8 "[" ++ intText h.start ++ utf8 ":" ++ intText h.stop ++ utf8 "]"

end Highlight

/-- A style for each of some categories, at most one for each. -/
structure Theme where
  styles : List (Category × Style)
  deriving Repr

namespace Theme

/-- The theme that styles nothing. -/
def empty : Theme := ⟨[]⟩

/-- The style of a category; a category that the theme leaves out is plain. -/
def style (t : Theme) (c : Category) : Style := (t.styles.lookup c).getD .plain

/-- A theme with the style of one category replaced. -/
def insert (t : Theme) (c : Category) (s : Style) : Theme :=
  ⟨t.styles.filter (·.1 != c) ++ [(c, s)]⟩

/-- The highlight of a range as a category, unless the range is empty or the category plain. -/
def highlight? (t : Theme) (start stop : Int) (c : Category) : Option Highlight :=
  if stop ≤ start then none
  else if (t.style c).isPlain then none
  else some ⟨start, stop, c, t.style c⟩

/-- The theme in which sources are drawn when no other is chosen. -/
def default : Theme :=
  let punctuation := Style.colored 0xFFA6B2C0
  let operator := Style.colored 0xFF61AFEF
  ⟨[(.keyword, .slanted 0xFFC679DD),
    (.stringLiteral, .colored 0xFF98C379),
    (.numberLiteral, .colored 0xFFD19A66),
    (.lineComment, .slanted 0xFF59626F),
    (.blockComment, .slanted 0xFF59626F),
    (.square, punctuation),
    (.paren, punctuation),
    (.bracket, punctuation),
    (.dot, punctuation),
    (.comma, punctuation),
    (.safeDot, punctuation),
    (.colon, operator),
    (.operator, operator),
    (.nullableMarker, operator),
    (.reference, operator),
    (.arrow, operator),
    (.nonNull, operator),
    (.dataDeclaration, .colored 0xFFE5C17C),
    (.traitDeclaration, .colored 0xFF98C379),
    (.effectDeclaration, .colored 0xFF4EC9B0),
    (.functionDeclaration, .colored 0xFF61AEEF),
    (.functionCall, .colored 0xFF61AEEF),
    (.propertyDeclaration, .colored 0xFFE06C75),
    (.namedValueArgument, .colored 0xFFD19A66),
    (.typeParameter, .slanted 0xFFE5C17C),
    (.parameter, .slanted 0xFFABB2BF),
    (.error, .underlined 0xFFFF0000)]⟩

end Theme

end Yurin
