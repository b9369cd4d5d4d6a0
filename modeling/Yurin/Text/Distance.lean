import Yurin.Text.Rune

/-!
# Edit distance

The least number of insertions, deletions and substitutions of characters that turn one text into
another, computed row by row.
-/

namespace Yurin

/-- The next row of the distance table, for one more character `a` of the first text. `corner` is
the entry above and to the left, `left` the entry to the left, and the lists hold the second text
with the entries above its characters. -/
def distanceRow (a : Nat) : (corner left : Nat) → List (Nat × Nat) → List Nat
  | _, _, [] => []
  | corner, left, (b, above) :: rest =>
    let entry := min (min (left + 1) (above + 1)) (if a = b then corner else corner + 1)
    entry :: distanceRow a above entry rest

/-- The rows of the distance table, down to the last one. -/
def distanceRows (second : List Nat) : (first : Nat) → (row : List Nat) → List Nat → List Nat
  | first, row, [] => first :: row
  | first, row, a :: rest =>
    distanceRows second (first + 1) (distanceRow a first (first + 1) (second.zip row)) rest

/-- The edit distance of two texts. -/
def editDistance (x y : Bytes) : Nat :=
  let codes (text : Bytes) := (runes text).map (·.1.code)
  let second := codes y
  (distanceRows second 0 (second.mapIdx fun i _ => i + 1) (codes x)).getLastD 0

end Yurin
