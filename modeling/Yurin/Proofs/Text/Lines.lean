import Mathlib.Data.List.Induction
import Yurin.Position
import Yurin.Proofs.Token.Lexing

/-!
# Places in the lines of a text

A place that counts lines and columns while a text is read agrees with the line index of the text,
which knows where the lines begin: the index finds the offset of the place (`offset_after`), and the
line and column of the offset (`lineColumn_after`).
-/

namespace Yurin

theorem lineStartsAfter_append (at0 : Nat) (text more : Bytes) :
    lineStartsAfter at0 (text ++ more) =
      lineStartsAfter at0 text ++ lineStartsAfter (at0 + text.length) more := by
  induction text generalizing at0 with
  | nil => rfl
  | cons b rest ih =>
    have hlen : at0 + (b :: rest).length = at0 + 1 + rest.length := by
      rw [List.length_cons]
      omega
    rw [List.cons_append, lineStartsAfter, lineStartsAfter, hlen, ih]
    split <;> rfl

/-- The lines of a text begin one after the other. -/
theorem lineStartsAfter_pairwise (at0 : Nat) (text : Bytes) :
    (at0 :: lineStartsAfter at0 text).Pairwise (· < ·) := by
  induction text generalizing at0 with
  | nil => exact List.pairwise_singleton _ _
  | cons b rest ih =>
    have hnext := ih (at0 + 1)
    have hlater (n : Nat) (hn : n ∈ lineStartsAfter (at0 + 1) rest) : at0 < n :=
      Nat.lt_of_succ_lt (List.rel_of_pairwise_cons hnext hn)
    rw [lineStartsAfter]
    split
    · refine List.pairwise_cons.mpr ⟨fun n hn => ?_, hnext⟩
      rcases List.mem_cons.mp hn with rfl | hn
      · exact Nat.lt_succ_self at0
      · exact hlater n hn
    · exact List.pairwise_cons.mpr ⟨hlater, hnext.of_cons⟩

/-- The place after a text is in its last line, as far from the start of that line as the text
reaches. -/
theorem Place.after_last (text : Bytes) :
    ∃ earlier last, 0 :: lineStartsAfter 0 text = earlier ++ [last] ∧
      (Place.start.after text).line = earlier.length + 1 ∧
      last + (Place.start.after text).column = text.length := by
  induction text using List.reverseRecOn with
  | nil => exact ⟨[], 0, rfl, rfl, rfl⟩
  | append_singleton text b ih =>
    obtain ⟨earlier, last, hstarts, hline, hcolumn⟩ := ih
    rw [Place.after_append, lineStartsAfter_append, ← List.cons_append, hstarts]
    simp only [Place.after_cons, Place.after_nil, lineStartsAfter, Place.step, Nat.zero_add,
      List.length_append, List.length_singleton]
    split
    · refine ⟨earlier ++ [last], text.length + 1, rfl, ?_, rfl⟩
      rw [hline, List.length_append, List.length_singleton]
    · exact ⟨earlier, last, by simp, hline, by rw [← hcolumn, Nat.add_assoc]⟩

namespace LineIndex

/-- The line starts of a text, from the end of its beginning `text`: those up to the line of this
place, and those behind it. -/
theorem starts_after (text more : Bytes) :
    ∃ earlier last,
      (ofText (text ++ more)).starts = earlier ++ last :: lineStartsAfter text.length more ∧
      (Place.start.after text).line = earlier.length + 1 ∧
      last + (Place.start.after text).column = text.length := by
  obtain ⟨earlier, last, hstarts, hline, hcolumn⟩ := Place.after_last text
  refine ⟨earlier, last, ?_, hline, hcolumn⟩
  rw [ofText, lineStartsAfter_append, ← List.cons_append, hstarts]
  simp

theorem startOf_of_starts {x : LineIndex} {earlier later : List Nat} {last : Nat}
    (h : x.starts = earlier ++ last :: later) : x.startOf (earlier.length + 1) = last := by
  rw [startOf, h, List.getD_eq_getElem?_getD]
  simp

/-- **The offset of the place after the beginning of a text** is the end of this beginning. -/
theorem offset_after (text more : Bytes) :
    (ofText (text ++ more)).offset (Place.start.after text).line (Place.start.after text).column =
      text.length := by
  obtain ⟨earlier, last, hstarts, hline, hcolumn⟩ := starts_after text more
  have hclamp : clampInto 1 (ofText (text ++ more)).lines (Place.start.after text).line =
      earlier.length + 1 := by
    rw [clampInto, lines, hstarts, hline, List.length_append, List.length_cons]
    omega
  have hsize : (ofText (text ++ more)).size = text.length + more.length := List.length_append
  rw [offset, hclamp, startOf_of_starts hstarts, hsize, clampInto]
  omega

/-- **The line and the column of the end of the beginning of a text** are those of the place after
it. -/
theorem lineColumn_after (text more : Bytes) :
    (ofText (text ++ more)).lineColumn text.length =
      ((Place.start.after text).line, (Place.start.after text).column) := by
  obtain ⟨earlier, last, hstarts, hline, hcolumn⟩ := starts_after text more
  have hsorted : (ofText (text ++ more)).starts.Pairwise (· < ·) :=
    lineStartsAfter_pairwise 0 (text ++ more)
  have hclamp : clampInto 0 (ofText (text ++ more)).size text.length = text.length := by
    have hsize : (ofText (text ++ more)).size = text.length + more.length := List.length_append
    rw [clampInto, hsize]
    omega
  -- of the line starts, those up to `last` are not behind the place, and all others are
  have hupto : (ofText (text ++ more)).starts.takeWhile (· ≤ text.length) = earlier ++ [last] := by
    rw [hstarts, List.pairwise_append] at hsorted
    have hearlier (n : Nat) (hn : n ∈ earlier) : decide (n ≤ text.length) = true := by
      have := hsorted.2.2 n hn last List.mem_cons_self
      exact decide_eq_true (by omega)
    have hlater : (lineStartsAfter text.length more).takeWhile (· ≤ text.length) = [] := by
      cases hmore : lineStartsAfter text.length more with
      | nil => rfl
      | cons n later =>
        have hbehind := lineStartsAfter_pairwise text.length more
        rw [hmore] at hbehind
        have hlt := List.rel_of_pairwise_cons hbehind List.mem_cons_self
        exact List.takeWhile_cons_of_neg (by simpa using hlt)
    have hlast : last ≤ text.length := by omega
    rw [hstarts, List.takeWhile_append_of_pos hearlier,
      List.takeWhile_cons_of_pos (by simpa using hlast), hlater]
  rw [lineColumn, hclamp, hupto, List.length_append, List.length_singleton,
    startOf_of_starts hstarts, hline, ← hcolumn, Nat.add_sub_cancel_left]

end LineIndex

end Yurin
