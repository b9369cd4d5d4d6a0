import Yurin.Proofs.Text.Boundaries
import Yurin.Proofs.Text.Lines

/-!
# The lines of a text

`IsLine` says what a line is without counting offsets: a part of the text without a line feed,
between two line feeds or the ends of the text. Its number is the number of line feeds before it.

Results:
* `exists_isLine`, `exists_isLine_at`: there is a line for every number up to that of the line
  feeds, and one for every offset.
* `IsLine.lineBounds`: the line index knows where each line begins and ends.
* `IsLine.le_lineColumn`: an offset is not before a line exactly when the line index gives it the
  number of that line or a greater one.
* `IsLine.lt_of_lt`: a line ends before the next one begins.
-/

namespace Yurin

/-- The line of a text with a number, from zero, between what stands before and behind it. -/
structure Bytes.IsLine (text : Bytes) (number : Nat) (before line behind : Bytes) : Prop where
  split : text = before ++ line ++ behind
  count : before.count lineFeed = number
  opened : before = [] ∨ before.getLast? = some lineFeed
  unbroken : lineFeed ∉ line
  closed : behind = [] ∨ behind.head? = some lineFeed

/-- **Every line there is.** -/
theorem Bytes.exists_isLine {text : Bytes} {number : Nat} (h : number ≤ text.count lineFeed) :
    ∃ before line behind, text.IsLine number before line behind := by
  induction text generalizing number with
  | nil =>
    obtain rfl : number = 0 := Nat.le_zero.mp h
    exact ⟨[], [], [], rfl, rfl, .inl rfl, List.not_mem_nil, .inl rfl⟩
  | cons b rest ih =>
    by_cases hb : b = lineFeed
    · subst hb
      cases number with
      | zero => exact ⟨[], [], lineFeed :: rest, rfl, rfl, .inl rfl, List.not_mem_nil, .inr rfl⟩
      | succ number =>
        rw [List.count_cons_self, Nat.add_le_add_iff_right] at h
        obtain ⟨before, line, behind, hline⟩ := ih h
        refine ⟨lineFeed :: before, line, behind, ?_, ?_, .inr ?_, hline.unbroken, hline.closed⟩
        · simp [hline.split]
        · rw [List.count_cons_self, hline.count]
        · rcases hline.opened with rfl | hlast
          · rfl
          · rw [List.getLast?_cons, hlast, Option.getD_some]
    · rw [List.count_cons_of_ne hb] at h
      obtain ⟨before, line, behind, hline⟩ := ih h
      rcases hline.opened with rfl | hlast
      · refine ⟨[], b :: line, behind, ?_, hline.count, .inl rfl, ?_, hline.closed⟩
        · simp [hline.split]
        · simp [hline.unbroken, Ne.symm hb]
      · refine ⟨b :: before, line, behind, ?_, ?_, .inr ?_, hline.unbroken, hline.closed⟩
        · simp [hline.split]
        · rw [List.count_cons_of_ne hb, hline.count]
        · rw [List.getLast?_cons, hlast, Option.getD_some]

/-- **The line of an offset**, and where the offset is in it. -/
theorem Bytes.exists_isLine_at {text : Bytes} {i : Nat} (hi : i ≤ text.length) :
    ∃ number before left right behind, text.IsLine number before (left ++ right) behind ∧
      (before ++ left).length = i := by
  have hcount : (text.take i).count lineFeed ≤ text.count lineFeed :=
    (List.take_sublist i text).count_le lineFeed
  obtain ⟨before, line, behind, hline⟩ := exists_isLine hcount
  have hlen := congrArg List.length hline.split
  have hlength : (text.take i).length = i := by rw [List.length_take, Nat.min_eq_left hi]
  -- the line with as many line feeds before it as the offset has neither begins behind the offset
  have hopen : before.length ≤ i := by
    refine Nat.le_of_not_lt fun hlt => ?_
    rcases hline.opened with rfl | hlast
    · cases hlt
    · obtain ⟨init, rfl⟩ := List.getLast?_eq_some_iff.mp hlast
      have hprefix : text.take i <+: init := by
        refine List.prefix_of_prefix_length_le (List.take_prefix i text)
          ⟨lineFeed :: (line ++ behind), by rw [hline.split]; simp⟩ ?_
        rw [hlength]
        simpa [Nat.lt_succ_iff] using hlt
      have hle := hprefix.sublist.count_le lineFeed
      have hmore := hline.count
      rw [List.count_append, List.count_singleton_self] at hmore
      omega
  -- nor ends before it
  have hclose : i ≤ (before ++ line).length := by
    refine Nat.le_of_not_lt fun hlt => ?_
    rcases hline.closed with rfl | hhead
    · rw [List.append_nil] at hlen
      omega
    · obtain ⟨more, rfl⟩ := List.head?_eq_some_iff.mp hhead
      have hprefix : before ++ line ++ [lineFeed] <+: text.take i := by
        refine List.prefix_of_prefix_length_le ⟨more, by rw [hline.split]; simp⟩
          (List.take_prefix i text) ?_
        rw [hlength, List.length_append]
        exact hlt
      have hle := hprefix.sublist.count_le lineFeed
      have hmore := hline.count
      rw [List.count_append, List.count_append, List.count_singleton_self] at hle
      omega
  rw [List.length_append] at hclose
  refine ⟨(text.take i).count lineFeed, before, line.take (i - before.length),
    line.drop (i - before.length), behind, ?_, ?_⟩
  · rwa [List.take_append_drop]
  · rw [List.length_append, List.length_take]
    omega

/-! ## Line starts -/

theorem lineStartsAfter_length (at0 : Nat) (text : Bytes) :
    (lineStartsAfter at0 text).length = text.count lineFeed := by
  induction text generalizing at0 with
  | nil => rfl
  | cons b rest ih =>
    rw [lineStartsAfter]
    split
    · rename_i hb
      rw [List.length_cons, ih, hb, List.count_cons_self]
    · rename_i hb
      rw [ih, List.count_cons_of_ne hb]

theorem lineStartsAfter_of_not_mem (at0 : Nat) {text : Bytes} (h : lineFeed ∉ text) :
    lineStartsAfter at0 text = [] := by
  rw [← List.length_eq_zero_iff, lineStartsAfter_length, List.count_eq_zero]
  exact h

namespace Bytes.IsLine

variable {text before line behind : Bytes} {number : Nat}

/-- Where a line begins in the list of line starts. -/
theorem starts (h : text.IsLine number before line behind) :
    ∃ earlier, earlier.length = number ∧
      (LineIndex.ofText text).starts =
        earlier ++ before.length :: lineStartsAfter (before ++ line).length behind := by
  have hsplit : (LineIndex.ofText text).starts =
      (0 :: lineStartsAfter 0 before) ++ lineStartsAfter (before ++ line).length behind := by
    rw [LineIndex.ofText, h.split, lineStartsAfter_append, lineStartsAfter_append,
      lineStartsAfter_of_not_mem _ h.unbroken]
    simp
  rcases h.opened with rfl | hlast
  · exact ⟨[], h.count, hsplit⟩
  · obtain ⟨init, hinit⟩ := List.getLast?_eq_some_iff.mp hlast
    have hstarts : lineStartsAfter 0 before = lineStartsAfter 0 init ++ [before.length] := by
      rw [hinit, lineStartsAfter_append]
      simp [lineStartsAfter]
    refine ⟨0 :: lineStartsAfter 0 init, ?_, ?_⟩
    · have hcount := congrArg List.length hstarts
      rw [lineStartsAfter_length, h.count] at hcount
      simp [hcount]
    · rw [hsplit, hstarts]
      simp

/-- **The bounds of a line.** -/
theorem lineBounds (h : text.IsLine number before line behind) :
    (LineIndex.ofText text).lineBounds ((number : Int) + 1) =
      (before.length, (before ++ line).length) := by
  obtain ⟨earlier, hlen, hstarts⟩ := h.starts
  have hlines : (LineIndex.ofText text).lines =
      number + 1 + (lineStartsAfter (before ++ line).length behind).length := by
    rw [LineIndex.lines, hstarts, List.length_append, List.length_cons, hlen]
    omega
  have hfirst : (LineIndex.ofText text).startOf (number + 1) = before.length :=
    hlen ▸ LineIndex.startOf_of_starts hstarts
  have hnumber : ((number : Int) + 1).toNat = number + 1 := by omega
  rw [LineIndex.lineBounds, if_neg (by omega)]
  dsimp only
  rw [hnumber, hfirst]
  congr 1
  rcases h.closed with rfl | hhead
  · rw [if_neg (by simp [hlines, lineStartsAfter]), LineIndex.ofText, h.split, List.append_nil]
  · obtain ⟨more, rfl⟩ := List.head?_eq_some_iff.mp hhead
    have hnext :
        (LineIndex.ofText text).startOf (number + 1 + 1) = (before ++ line).length + 1 := by
      rw [LineIndex.startOf, hstarts, List.getD_eq_getElem?_getD]
      simp [← hlen, lineStartsAfter]
    rw [if_pos (by simp [hlines, lineStartsAfter]), hnext, Nat.add_sub_cancel]

/-- **Lines of offsets.** An offset is not before a line exactly when its own line is this one or a
later one. An integer that is no offset counts as the offset next to it. -/
theorem le_lineColumn (h : text.IsLine number before line behind) (offset : Int) :
    number + 1 ≤ ((LineIndex.ofText text).lineColumn offset).1 ↔
      (before.length : Int) ≤ max offset 0 := by
  obtain ⟨earlier, hlen, hstarts⟩ := h.starts
  have hsorted : (LineIndex.ofText text).starts.Pairwise (· < ·) := lineStartsAfter_pairwise 0 text
  obtain ⟨at0, hat⟩ : ∃ at0, at0 = clampInto 0 (LineIndex.ofText text).size offset := ⟨_, rfl⟩
  have hle : before.length ≤ at0 ↔ (before.length : Int) ≤ max offset 0 := by
    have hsize : (LineIndex.ofText text).size = before.length + line.length + behind.length := by
      rw [LineIndex.ofText, h.split, List.length_append, List.length_append]
    rw [hat, clampInto, hsize]
    omega
  rw [LineIndex.lineColumn, ← hat, ← hle]
  dsimp only
  rw [hstarts, List.pairwise_append] at hsorted
  rw [hstarts]
  by_cases hbefore : before.length ≤ at0
  · refine iff_of_true ?_ hbefore
    have hearlier : ∀ n ∈ earlier, decide (n ≤ at0) = true := fun n hn => by
      have := hsorted.2.2 n hn _ List.mem_cons_self
      exact decide_eq_true (by omega)
    rw [List.takeWhile_append_of_pos hearlier, List.takeWhile_cons_of_pos (by simpa using hbefore)]
    simp [hlen]
  · refine iff_of_false ?_ hbefore
    rw [List.takeWhile_append, List.takeWhile_cons_of_neg (by simpa using hbefore)]
    have hshort := (List.takeWhile_sublist (fun n => decide (n ≤ at0)) (l := earlier)).length_le
    split
    · simp [hlen]
    · omega

/-! ## Several lines -/

/-- Lines with other numbers: the one with the smaller number ends before the other begins. -/
theorem lt_of_lt (h : text.IsLine number before line behind) {before' line' behind' : Bytes}
    {number' : Nat} (h' : text.IsLine number' before' line' behind') (hlt : number < number') :
    (before ++ line).length < before'.length := by
  -- otherwise what stands before the later line would have no more line feeds
  refine Nat.lt_of_not_le fun hle => ?_
  have hprefix : before' <+: before ++ line := by
    refine List.prefix_of_prefix_length_le ?_ ⟨behind, h.split.symm⟩ hle
    exact ⟨line' ++ behind', by rw [h'.split, List.append_assoc]⟩
  have hcount := hprefix.sublist.count_le lineFeed
  rw [List.count_append, List.count_eq_zero.mpr h.unbroken, h.count, h'.count] at hcount
  omega

/-- There is one line with a number. -/
theorem unique (h : text.IsLine number before line behind) {before' line' behind' : Bytes}
    (h' : text.IsLine number before' line' behind') : before = before' ∧ line = line' := by
  obtain ⟨hstart, hstop⟩ := Prod.mk.inj (h.lineBounds.symm.trans h'.lineBounds)
  have hsplit : before ++ (line ++ behind) = before' ++ (line' ++ behind') := by
    rw [← List.append_assoc, ← h.split, ← List.append_assoc, ← h'.split]
  obtain ⟨hbefore, hrest⟩ := List.append_inj hsplit hstart
  rw [List.length_append, List.length_append, hbefore] at hstop
  exact ⟨hbefore, (List.append_inj hrest (by omega)).1⟩

/-- Lines begin and end at boundaries. -/
theorem boundary (h : text.IsLine number before line behind) :
    Boundary text before.length ∧ Boundary text (before ++ line).length := by
  constructor
  · rcases h.opened with rfl | hlast
    · exact boundary_zero text
    · obtain ⟨init, hinit⟩ := List.getLast?_eq_some_iff.mp hlast
      have hboundary := boundary_after_ascii init (by decide : lineFeed < 128) (line ++ behind)
      rw [h.split, hinit]
      simpa using hboundary
  · rcases h.closed with rfl | hhead
    · have hlength := boundary_length text
      nth_rewrite 2 [h.split] at hlength
      rwa [List.append_nil] at hlength
    · obtain ⟨more, rfl⟩ := List.head?_eq_some_iff.mp hhead
      rw [h.split]
      exact boundary_before_ascii (before ++ line) (by decide) more

end Bytes.IsLine

end Yurin
