/-!
# Tables of code point ranges

A property of code points is given by the ranges that have it, in increasing order.
-/

namespace Yurin

/-- Whether a code point lies in one of the ranges, whose ends belong to them. -/
def inRanges (ranges : List (Nat × Nat)) (code : Nat) : Bool :=
  ranges.any fun (first, last) => first ≤ code && code ≤ last

end Yurin
