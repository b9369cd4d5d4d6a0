import Yurin.Text.Bytes

/-!
# Lines and columns of a text

`LineIndex` maps between byte offsets and positions. Lines count from one and columns from zero,
in bytes; an editor counts lines from zero as well (`EditorPlace`). Queries take any integers and
answer inside the text: lines are moved to the first or last line and offsets into `[0, size]`.
-/

namespace Yurin

/-- A line and a character in it, both from zero, as editors address text. -/
structure EditorPlace where
  line : Nat
  character : Nat
  deriving DecidableEq, Repr

/-- A range of text between two editor places. -/
structure EditorRange where
  start : EditorPlace
  stop : EditorPlace
  deriving DecidableEq, Repr

/-- The offsets at which the lines of a text begin, in order, and the size of the text. -/
structure LineIndex where
  starts : List Nat
  size : Nat
  deriving DecidableEq, Repr

/-- The offsets after the line feeds of a text that begins at offset `at0`. -/
def lineStartsAfter (at0 : Nat) : Bytes → List Nat
  | [] => []
  | b :: rest =>
    if b = lineFeed then (at0 + 1) :: lineStartsAfter (at0 + 1) rest
    else lineStartsAfter (at0 + 1) rest

/-- An integer moved into `[lo, hi]`. -/
def clampInto (lo hi : Nat) (n : Int) : Nat := min (max n lo).toNat hi

namespace LineIndex

/-- The line index of a text. -/
def ofText (text : Bytes) : LineIndex := ⟨0 :: lineStartsAfter 0 text, text.length⟩

/-- The number of lines; a final line feed opens an empty line. -/
def lines (x : LineIndex) : Nat := x.starts.length

/-- The offset at which a line begins, for a line in `[1, lines]`. -/
def startOf (x : LineIndex) (line : Nat) : Nat := x.starts.getD (line - 1) 0

/-- The offset of a column in a line. -/
def offset (x : LineIndex) (line column : Int) : Nat :=
  clampInto 0 x.size (x.startOf (clampInto 1 x.lines line) + column)

/-- The line of an offset and the column in it. -/
def lineColumn (x : LineIndex) (offset : Int) : Nat × Nat :=
  let at0 := clampInto 0 x.size offset
  let line := (x.starts.takeWhile (· ≤ at0)).length
  (line, at0 - x.startOf line)

/-- The bytes of a line without its line feed; the empty range at the end of the text for a line
that does not exist. -/
def lineBounds (x : LineIndex) (line : Int) : Nat × Nat :=
  if line < 1 ∨ (x.lines : Int) < line then (x.size, x.size)
  else
    let n := line.toNat
    (x.startOf n, if n < x.lines then x.startOf (n + 1) - 1 else x.size)

/-- The editor place of an offset. -/
def place (x : LineIndex) (offset : Int) : EditorPlace :=
  let (line, column) := x.lineColumn offset
  ⟨line - 1, column⟩

/-- The editor range of the bytes `[start, stop)`; a range that ends before it starts is empty. -/
def span (x : LineIndex) (start stop : Int) : EditorRange :=
  ⟨x.place start, x.place (max stop start)⟩

end LineIndex

end Yurin
