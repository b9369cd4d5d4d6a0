import Yurin.Output
import Yurin.Style.Theme
import Yurin.Terminal.Sgr

/-!
# Painting highlighted source

Highlights are laid over the source one after the other: a later color or underline replaces an
earlier one, bold and italics add up. The painted source is written run by run, a run being the
longest stretch of bytes of one style, and the escapes of a run never cross a line break.
-/

namespace Yurin

namespace Style

/-- A style laid over another one. -/
def overlay (below above : Style) : Style where
  color := if above.color.isSet then above.color else below.color
  bold := below.bold || above.bold
  italic := below.italic || above.italic
  underline := if above.underline.isSet then above.underline else below.underline

/-- The terminal parameters of a style. -/
def parameters (s : Style) : List Nat :=
  (if s.color.isSet then
    Sgr.foreground s.color.red.toNat s.color.green.toNat s.color.blue.toNat else [])
    ++ (if s.bold then [Sgr.bold] else [])
    ++ (if s.italic then [Sgr.italic] else [])
    ++ (if s.underline.isSet then [Sgr.underline] else [])

end Style

/-- The style of the byte at an offset. -/
def styleAt (highlights : List Highlight) (offset : Nat) : Style :=
  highlights.foldl
    (fun s h =>
      if h.start ≤ (offset : Int) ∧ (offset : Int) < h.stop then s.overlay h.style else s)
    .plain

/-- The style of every byte of a source. -/
def paint (source : Bytes) (highlights : List Highlight) : List Style :=
  (List.range source.length).map (styleAt highlights)

/-- Neighbouring bytes of one style put together. -/
def runsOf : List (Style × UInt8) → List (Style × Bytes)
  | [] => []
  | (s, b) :: rest =>
    match runsOf rest with
    | (s', text) :: runs =>
      if s = s' then (s, b :: text) :: runs else (s, [b]) :: (s', text) :: runs
    | [] => [(s, [b])]

/-- A line in a style; nothing is written around an empty line. -/
def styledLine (s : Style) (line : Bytes) : Bytes :=
  if line.isEmpty then [] else Sgr.wrap s.parameters line

/-- A text in a style, line by line. -/
def styledText (s : Style) (text : Bytes) : Bytes :=
  if s.isPlain then text
  else Bytes.join [lineFeed] ((text.splitOn lineFeed).map (styledLine s))

/-- The pieces in which a painted source is written, one for each run. -/
def ansiPieces (source : Bytes) (highlights : List Highlight) : List Bytes :=
  (runsOf ((paint source highlights).zip source)).map fun (s, text) => styledText s text

/-- What a write fails with when the output refuses it. -/
def refusedWrite : Bytes := utf8 "disk full"

/-- The output of a source: painted run by run, or as it is when colors are off. -/
def ansiOutput (source : Bytes) (highlights : List Highlight) (colored : Bool) : Output Bytes :=
  if colored then
    .all ((ansiPieces source highlights).map (.write (utf8 "writing: " ++ refusedWrite)))
  else .write refusedWrite source

end Yurin
