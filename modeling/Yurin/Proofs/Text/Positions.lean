import Mathlib.Data.Prod.Lex
import Yurin.Proofs.Text.LineBounds

/-!
# Offsets and places in a text

Places are pairs of a line from one and a column from zero. They are ordered by lines first
(`ℕ ×ₗ ℕ`), as an editor orders them.

Results:
* `IsLine.lineColumn`, `IsLine.offset`: where a line is known, so are the places of its offsets and
  the offsets of its places.
* `offset_lineColumn`, `lineColumn_offset`: offsets and places are the same thing.
* `lineColumn_lt`: and in the same order.
* `tiles_ofText`: the lines and the line feeds between them are the whole text.
* `ofText_faithful`: all of this, and what the range of an editor stands for.
-/

namespace Yurin

namespace Bytes.IsLine

variable {text before left right line behind : Bytes} {number : Nat}

/-- **The place of an offset** in a line. -/
theorem lineColumn (h : text.IsLine number before (left ++ right) behind) :
    (LineIndex.ofText text).lineColumn (before ++ left).length = (number + 1, left.length) := by
  obtain ⟨earlier, hlen, hstarts⟩ := h.starts
  have hsorted : (LineIndex.ofText text).starts.Pairwise (· < ·) := lineStartsAfter_pairwise 0 text
  rw [hstarts, List.pairwise_append] at hsorted
  have hclamp : clampInto 0 (LineIndex.ofText text).size (before ++ left).length =
      (before ++ left).length := by
    rw [clampInto, LineIndex.ofText, h.split]
    simp only [List.length_append]
    omega
  -- of the line starts, those up to the one of this line are not behind the offset, all others are
  have hearlier : ∀ n ∈ earlier, decide (n ≤ (before ++ left).length) = true := fun n hn => by
    have := hsorted.2.2 n hn _ List.mem_cons_self
    rw [List.length_append]
    exact decide_eq_true (by omega)
  have hown : decide (before.length ≤ (before ++ left).length) = true := by simp
  have hlater : (lineStartsAfter (before ++ (left ++ right)).length behind).takeWhile
      (· ≤ (before ++ left).length) = [] := by
    rcases h.closed with rfl | hhead
    · rfl
    · obtain ⟨more, rfl⟩ := List.head?_eq_some_iff.mp hhead
      refine List.takeWhile_cons_of_neg ?_
      simp only [List.length_append, decide_eq_true_eq]
      omega
  have hupto : (LineIndex.ofText text).starts.takeWhile (· ≤ (before ++ left).length) =
      earlier ++ [before.length] := by
    rw [hstarts, List.takeWhile_append_of_pos hearlier,
      List.takeWhile_cons_of_pos (by exact hown), hlater]
  rw [LineIndex.lineColumn, hclamp, hupto, List.length_append, List.length_singleton,
    LineIndex.startOf_of_starts hstarts, hlen, List.length_append, Nat.add_sub_cancel_left]

/-- **The offset of a place** in a line. -/
theorem offset (h : text.IsLine number before line behind) {column : Nat}
    (hcolumn : column ≤ line.length) :
    (LineIndex.ofText text).offset ((number : Int) + 1) column = before.length + column := by
  obtain ⟨earlier, hlen, hstarts⟩ := h.starts
  have hline : clampInto 1 (LineIndex.ofText text).lines ((number : Int) + 1) =
      earlier.length + 1 := by
    rw [clampInto, LineIndex.lines, hstarts, List.length_append, List.length_cons, hlen]
    omega
  have hsize : (LineIndex.ofText text).size = before.length + line.length + behind.length := by
    rw [LineIndex.ofText, h.split, List.length_append, List.length_append]
  rw [LineIndex.offset, hline, LineIndex.startOf_of_starts hstarts, clampInto, hsize]
  omega

/-- Only the last line ends with the text. -/
theorem behind_eq_nil_iff (h : text.IsLine number before line behind) :
    behind = [] ↔ number = text.count lineFeed := by
  have hcount : text.count lineFeed = number + behind.count lineFeed := by
    rw [h.split, List.count_append, List.count_append, h.count, List.count_eq_zero.mpr h.unbroken]
    rfl
  rw [hcount, Nat.left_eq_add, List.count_eq_zero]
  refine ⟨fun hnil => hnil ▸ List.not_mem_nil, fun hnone => ?_⟩
  exact h.closed.resolve_right fun hhead => hnone (List.mem_of_head? hhead)

/-- The line of an offset does not come after the line of a greater one. -/
theorem lt_or_same (h : text.IsLine number before (left ++ right) behind)
    {before' left' right' behind' : Bytes} {number' : Nat}
    (h' : text.IsLine number' before' (left' ++ right') behind')
    (hle : (before ++ left).length ≤ (before' ++ left').length) :
    number < number' ∨ number = number' ∧ before = before' := by
  rcases Nat.lt_trichotomy number number' with hlt | rfl | hgt
  · exact .inl hlt
  · exact .inr ⟨rfl, (h.unique h').1⟩
  · -- otherwise the line of the greater offset would end before that offset
    have hends := h'.lt_of_lt h hgt
    simp only [List.length_append] at hends hle
    omega

theorem number_le (h : text.IsLine number before line behind) : number ≤ text.count lineFeed := by
  rw [← h.count, h.split, List.append_assoc, List.count_append]
  exact Nat.le_add_right _ _

/-- What stands at the end of a line. -/
theorem getElem?_stop (h : text.IsLine number before line behind) :
    text[(before ++ line).length]? = behind.head? := by
  rw [h.split, List.getElem?_append_right (Nat.le_refl _), Nat.sub_self, List.head?_eq_getElem?]

end Bytes.IsLine

namespace LineIndex

variable {text : Bytes}

theorem lines_ofText (text : Bytes) : (ofText text).lines = text.count lineFeed + 1 := by
  rw [lines, ofText, List.length_cons, lineStartsAfter_length]

/-- Every number of a line is that of a part of the text. -/
theorem exists_isLine_of_lines {line : Nat} (h : 1 ≤ line) (hlines : line ≤ (ofText text).lines) :
    ∃ number before shown behind, line = number + 1 ∧ text.IsLine number before shown behind ∧
      (ofText text).lineBounds line = (before.length, (before ++ shown).length) := by
  obtain ⟨number, rfl⟩ := Nat.exists_eq_add_of_le' h
  rw [lines_ofText] at hlines
  obtain ⟨before, shown, behind, hline⟩ := Bytes.exists_isLine (Nat.le_of_succ_le_succ hlines)
  exact ⟨number, before, shown, behind, rfl, hline, hline.lineBounds⟩

/-! ## There and back -/

/-- **An offset is found again** from its place. -/
theorem offset_lineColumn {i : Nat} (hi : i ≤ text.length) :
    (ofText text).offset ((ofText text).lineColumn i).1 ((ofText text).lineColumn i).2 = i := by
  obtain ⟨number, before, left, right, behind, hline, rfl⟩ := Bytes.exists_isLine_at hi
  have hcolumn : left.length ≤ (left ++ right).length := by simp
  rw [hline.lineColumn, List.length_append, ← hline.offset hcolumn, Int.natCast_succ]

/-- **A place is found again** from its offset, up to the end of its line. -/
theorem lineColumn_offset {line column : Nat} (h : 1 ≤ line) (hlines : line ≤ (ofText text).lines)
    (hcolumn : column ≤ ((ofText text).lineBounds line).2 - ((ofText text).lineBounds line).1) :
    (ofText text).lineColumn ((ofText text).offset line column) = (line, column) := by
  obtain ⟨number, before, shown, behind, rfl, hline, hbounds⟩ := exists_isLine_of_lines h hlines
  rw [hbounds, List.length_append, Nat.add_sub_cancel_left] at hcolumn
  rw [Int.natCast_succ, hline.offset hcolumn]
  rw [← List.take_append_drop column shown] at hline
  have hplace := hline.lineColumn
  rwa [List.length_append, List.length_take, Nat.min_eq_left hcolumn] at hplace

/-- **Places are ordered like their offsets.** -/
theorem lineColumn_lt {i j : Nat} (hij : i < j) (hj : j ≤ text.length) :
    toLex ((ofText text).lineColumn i) < toLex ((ofText text).lineColumn j) := by
  obtain ⟨m, before, left, right, behind, hline, rfl⟩ :=
    Bytes.exists_isLine_at (Nat.le_of_lt (Nat.lt_of_lt_of_le hij hj))
  obtain ⟨n, before', left', right', behind', hline', rfl⟩ := Bytes.exists_isLine_at hj
  rw [hline.lineColumn, hline'.lineColumn, Prod.Lex.toLex_lt_toLex]
  rcases hline.lt_or_same hline' (Nat.le_of_lt hij) with hlt | ⟨rfl, rfl⟩
  · exact .inl (Nat.succ_lt_succ hlt)
  · simp only [List.length_append] at hij
    exact .inr ⟨rfl, Nat.lt_of_add_lt_add_left hij⟩

/-! ## The lines of the whole text -/

/-- The lines of an index are a text: they begin with it, one line feed stands between each and the
next one, they end with it, and nothing of it stands anywhere else. -/
structure Tiles (x : LineIndex) (text : Bytes) : Prop where
  first : (x.lineBounds 1).1 = 0
  last : (x.lineBounds x.lines).2 = text.length
  unbroken : ∀ line : Nat, 1 ≤ line → line ≤ x.lines →
    (x.lineBounds line).1 ≤ (x.lineBounds line).2 ∧
      lineFeed ∉ text.slice (x.lineBounds line).1 (x.lineBounds line).2
  parted : ∀ line : Nat, 1 ≤ line → line < x.lines →
    (x.lineBounds (line + 1)).1 = (x.lineBounds line).2 + 1 ∧
      text[(x.lineBounds line).2]? = some lineFeed
  covered : ∀ i < text.length, ∃ line : Nat, 1 ≤ line ∧ line ≤ x.lines ∧
    (x.lineBounds line).1 ≤ i ∧
      (i < (x.lineBounds line).2 ∨ i = (x.lineBounds line).2 ∧ line < x.lines)

/-- A line ends right before the next one begins. -/
theorem lineBounds_next (x : LineIndex) {line : Nat} (h : 1 ≤ line) (hlines : line < x.lines) :
    (x.lineBounds line).2 = (x.lineBounds (line + 1)).1 - 1 := by
  have hline : ((line : Int)).toNat = line := Int.toNat_natCast line
  have hnext : ((line : Int) + 1).toNat = line + 1 := by omega
  rw [lineBounds, lineBounds, if_neg (by omega), if_neg (by omega)]
  dsimp only
  rw [hline, hnext, if_pos hlines]

/-- **The lines of a text and the line feeds between them are the text.** -/
theorem tiles_ofText (text : Bytes) : (ofText text).Tiles text where
  first := by
    have hlines := lines_ofText text
    rw [lineBounds, if_neg (by omega)]
    rfl
  last := by
    have hlines := lines_ofText text
    rw [lineBounds, if_neg (by omega)]
    dsimp only
    rw [Int.toNat_natCast, if_neg (Nat.lt_irrefl _)]
    rfl
  unbroken line h hlines := by
    obtain ⟨number, before, shown, behind, rfl, hline, hbounds⟩ := exists_isLine_of_lines h hlines
    have hslice := Bytes.slice_append before shown behind
    rw [hbounds, List.length_append]
    refine ⟨Nat.le_add_right _ _, ?_⟩
    rw [hline.split, hslice]
    exact hline.unbroken
  parted line h hlines := by
    obtain ⟨number, before, shown, behind, rfl, hline, hbounds⟩ :=
      exists_isLine_of_lines h (Nat.le_of_lt hlines)
    obtain ⟨_, before', shown', behind', hnumber, hline', hbounds'⟩ :=
      exists_isLine_of_lines (Nat.le_add_left 1 (number + 1)) hlines
    obtain rfl := Nat.succ.inj hnumber
    rw [lines_ofText] at hlines
    constructor
    · have hstop := lineBounds_next (ofText text) h (by rw [lines_ofText]; exact hlines)
      have hends := hline.lt_of_lt hline' (Nat.lt_succ_self number)
      rw [Int.natCast_succ (number + 1)] at hbounds'
      rw [hbounds'] at hstop ⊢
      rw [hstop]
      dsimp only
      omega
    · have hmore : behind ≠ [] := fun hnil => by
        have := hline.behind_eq_nil_iff.mp hnil
        omega
      rw [hbounds, hline.getElem?_stop]
      exact hline.closed.resolve_left hmore
  covered i hi := by
    obtain ⟨number, before, left, right, behind, hline, rfl⟩ :=
      Bytes.exists_isLine_at (Nat.le_of_lt hi)
    have hnumber := hline.number_le
    refine ⟨number + 1, Nat.le_add_left 1 number, ?_, ?_⟩
    · rw [lines_ofText]
      exact Nat.succ_le_succ hnumber
    rw [Int.natCast_succ, hline.lineBounds, lines_ofText]
    refine ⟨by simp, ?_⟩
    -- an offset at the end of a line that is not the end of the text is that of its line feed
    cases right with
    | cons b right => exact .inl (by simp)
    | nil =>
      have hmore : number ≠ text.count lineFeed := fun hlast => by
        rw [hline.split, hline.behind_eq_nil_iff.mpr hlast] at hi
        simp at hi
      exact .inr ⟨by simp, by omega⟩

/-! ## Editor ranges -/

/-- An editor place is inside a line, and the offset there is `i`. -/
def Denotes (x : LineIndex) (p : EditorPlace) (i : Int) : Prop :=
  p.line < x.lines ∧ (x.lineBounds (p.line + 1)).1 + p.character = i ∧
    i ≤ (x.lineBounds (p.line + 1)).2

/-- The line of the offset next to an integer. -/
theorem exists_isLine_next (text : Bytes) (offset : Int) :
    ∃ number before left right behind, text.IsLine number before (left ++ right) behind ∧
      ((before ++ left).length : Int) = max 0 (min offset text.length) ∧
      (ofText text).lineColumn offset = (number + 1, left.length) := by
  obtain ⟨i, hi⟩ : ∃ i, i = clampInto 0 text.length offset := ⟨_, rfl⟩
  have hnext : (i : Int) = max 0 (min offset text.length) := by
    rw [hi, clampInto]
    omega
  have hi' : i ≤ text.length := by omega
  obtain ⟨number, before, left, right, behind, hline, hlen⟩ := Bytes.exists_isLine_at hi'
  refine ⟨number, before, left, right, behind, hline, by rw [hlen, hnext], ?_⟩
  have hclamp : (ofText text).lineColumn offset = (ofText text).lineColumn i := by
    have hsize : clampInto 0 (ofText text).size i = clampInto 0 (ofText text).size offset := by
      rw [hi]
      simp only [clampInto, ofText]
      omega
    rw [lineColumn, lineColumn, hsize]
  rw [hclamp, ← hlen, hline.lineColumn]

/-- The same with the editor place of the integer. -/
theorem exists_isLine_place (text : Bytes) (offset : Int) :
    ∃ number before left right behind, text.IsLine number before (left ++ right) behind ∧
      ((before ++ left).length : Int) = max 0 (min offset text.length) ∧
      (ofText text).place offset = ⟨number, left.length⟩ := by
  obtain ⟨number, before, left, right, behind, hline, hlen, hplace⟩ :=
    exists_isLine_next text offset
  exact ⟨number, before, left, right, behind, hline, hlen, by rw [place, hplace]; rfl⟩

/-- **The editor place of an integer** is the one of the offset next to it. -/
theorem place_denotes (text : Bytes) (offset : Int) :
    (ofText text).Denotes ((ofText text).place offset) (max 0 (min offset text.length)) := by
  obtain ⟨number, before, left, right, behind, hline, hlen, hplace⟩ :=
    exists_isLine_place text offset
  have hnumber := hline.number_le
  rw [hplace, ← hlen, Denotes, hline.lineBounds, lines_ofText]
  simp only [List.length_append]
  omega

/-- Editor places are ordered like the integers that they are the places of. -/
theorem place_le (text : Bytes) {start stop : Int} (h : start ≤ stop) :
    toLex (((ofText text).place start).line, ((ofText text).place start).character) ≤
      toLex (((ofText text).place stop).line, ((ofText text).place stop).character) := by
  obtain ⟨m, before, left, right, behind, hline, hlen, hplace⟩ := exists_isLine_place text start
  obtain ⟨n, before', left', right', behind', hline', hlen', hplace'⟩ :=
    exists_isLine_place text stop
  have hle : (before ++ left).length ≤ (before' ++ left').length := by omega
  rw [hplace, hplace', Prod.Lex.toLex_le_toLex]
  rcases hline.lt_or_same hline' hle with hlt | ⟨rfl, rfl⟩
  · exact .inl hlt
  · simp only [List.length_append] at hle
    exact .inr ⟨rfl, Nat.le_of_add_le_add_left hle⟩

/-- **The line index is faithful.** Every offset is found again from its place, every place up to
the end of its line from its offset, and both are ordered alike. The lines are the text without the
line feeds between them. The range of an editor for two integers does not end before it begins, and
denotes the offsets next to the first of them and to the greater of both. -/
theorem ofText_faithful (text : Bytes) :
    (∀ i ≤ text.length,
      (ofText text).offset ((ofText text).lineColumn i).1 ((ofText text).lineColumn i).2 = i) ∧
    (∀ line column : Nat, 1 ≤ line → line ≤ (ofText text).lines →
      column ≤ ((ofText text).lineBounds line).2 - ((ofText text).lineBounds line).1 →
      (ofText text).lineColumn ((ofText text).offset line column) = (line, column)) ∧
    (∀ i j : Nat, i < j → j ≤ text.length →
      toLex ((ofText text).lineColumn i) < toLex ((ofText text).lineColumn j)) ∧
    (ofText text).Tiles text ∧
    (∀ start stop : Int,
      let range := (ofText text).span start stop
      toLex (range.start.line, range.start.character) ≤
          toLex (range.stop.line, range.stop.character) ∧
        (ofText text).Denotes range.start (max 0 (min start text.length)) ∧
        (ofText text).Denotes range.stop (max 0 (min (max stop start) text.length))) := by
  refine ⟨fun i => offset_lineColumn, fun line column => lineColumn_offset,
    fun i j => lineColumn_lt, tiles_ofText text, fun start stop => ⟨?_, ?_, ?_⟩⟩
  · exact place_le text (le_max_right stop start)
  · exact place_denotes text start
  · exact place_denotes text (max stop start)

/-- In a text with an empty line and a line feed at its end, the places of the second and the third
line feed, and a range from before the text to far behind it. -/
theorem ofText_faithful_emptyLine :
    let x := ofText (utf8 "a\n\nbc\n")
    x.lines = 4 ∧ x.lineColumn (x.offset 2 0) = (2, 0) ∧ x.lineColumn (x.offset 3 2) = (3, 2) ∧
      toLex (x.lineColumn 2) < toLex (x.lineColumn 5) ∧
      x.Denotes (x.span (-1) 99).start 0 ∧ x.Denotes (x.span (-1) 99).stop 6 := by
  obtain ⟨-, hback, hordered, -, hspan⟩ := ofText_faithful (utf8 "a\n\nbc\n")
  refine ⟨by decide, hback 2 0 ?_ ?_ ?_, hback 3 2 ?_ ?_ ?_, hordered 2 5 ?_ ?_,
    (hspan (-1) 99).2.1, (hspan (-1) 99).2.2⟩ <;> decide

end LineIndex

end Yurin
