import Mathlib.Data.List.Induction
import Yurin.Proofs.Command.Schedules
import Yurin.Proofs.Terminal.Screen
import Yurin.Proofs.Text.Splitting
import Yurin.Terminal.Paint

/-!
# A terminal shows what is painted

The output of a painted source, read by a terminal (`Terminal.feed`).

* `styleAt_eq`: the style of a byte comes from the highlights that cover it. The last color and the
  last underline that are set count, and bold and italics add up.
* `apply_parameters`, `apply_resets`: the parameters of a style give the pen of the style, and their
  resets give the default pen back. A color is reset by a zero, whatever its channels are; without a
  color each attribute is reset by its own number.
* `draws_styledText`: a run of one style is drawn with its pen and its line feeds with the default
  one, and nothing of the style is left behind it.
* `runsOf_flatten`: the runs put together are the source again.

Result: `ansiOutput_shows`.
-/

namespace Yurin

/-! ## The style of a byte -/

/-- The highlights that cover the byte at an offset, in their order. -/
def covering (highlights : List Highlight) (offset : Nat) : List Highlight :=
  highlights.filter fun h => h.start ≤ (offset : Int) ∧ (offset : Int) < h.stop

/-- The last of some colors that is set. -/
def lastSet (colors : List Color) : Color := (colors.filter Color.isSet).getLast?.getD .unset

theorem lastSet_concat (colors : List Color) (c : Color) :
    lastSet (colors ++ [c]) = if c.isSet then c else lastSet colors := by
  unfold lastSet
  rw [List.filter_append, List.filter_singleton]
  cases c.isSet with
  | true => rw [cond_true, List.getLast?_concat, if_pos rfl, Option.getD_some]
  | false => rw [cond_false, List.append_nil, if_neg Bool.false_ne_true]

/-- Styles laid over each other. -/
def Style.layered (styles : List Style) : Style where
  color := lastSet (styles.map Style.color)
  bold := styles.any Style.bold
  italic := styles.any Style.italic
  underline := lastSet (styles.map Style.underline)

theorem Style.foldl_overlay (styles : List Style) :
    styles.foldl Style.overlay .plain = .layered styles := by
  induction styles using List.reverseRecOn with
  | nil => rfl
  | append_singleton styles s ih =>
    rw [List.foldl_append, List.foldl_cons, List.foldl_nil, ih]
    simp [layered, overlay, lastSet_concat]

/-- **The style of a byte** is that of the highlights that cover it, laid over each other. -/
theorem styleAt_eq (highlights : List Highlight) (offset : Nat) :
    styleAt highlights offset =
      .layered ((covering highlights offset).map Highlight.style) := by
  rw [← Style.foldl_overlay, List.foldl_map, covering, List.foldl_filter]
  simp only [decide_eq_true_eq]
  rfl

/-! ## Pens -/

/-- The pen that draws a style. -/
def Style.pen (s : Style) : Pen where
  foreground :=
    if s.color.isSet then some (s.color.red.toNat, s.color.green.toNat, s.color.blue.toNat)
    else none
  bold := s.bold
  italic := s.italic
  underline := s.underline.isSet

/-- A byte in a style, as a terminal shows it. -/
def Style.cell (s : Style) (b : UInt8) : UInt8 × Pen :=
  (b, if b = lineFeed then .default else s.pen)

/-- **The parameters of a style** give its pen. -/
theorem apply_parameters (s : Style) : Pen.default.apply s.parameters = s.pen := by
  obtain ⟨color, bold, italic, underline⟩ := s
  unfold Style.parameters Style.pen
  dsimp only
  generalize color.isSet = isColored
  generalize underline.isSet = isUnderlined
  cases isColored <;> cases bold <;> cases italic <;> cases isUnderlined <;> rfl

theorem change_resetOf (n : Nat) : Pen.default.change (Sgr.resetOf n) = .default := by
  unfold Sgr.resetOf
  split <;> rfl

theorem resetOf_ne_foreground (n : Nat) : Sgr.resetOf n ≠ 38 := by
  unfold Sgr.resetOf
  split <;> decide

/-- Resets change nothing of the default pen. -/
theorem apply_resets_default (numbers : List Nat) :
    Pen.default.apply (numbers.map Sgr.resetOf) = .default := by
  induction numbers with
  | nil => rfl
  | cons n rest ih =>
    rw [List.map_cons, Pen.apply.eq_2 _ _ _ fun _ _ _ _ h => absurd h (resetOf_ne_foreground n),
      change_resetOf, ih]

/-- **The resets of a style** leave nothing of it behind. -/
theorem apply_resets (s : Style) : s.pen.apply (s.parameters.map Sgr.resetOf) = .default := by
  obtain ⟨color, bold, italic, underline⟩ := s
  unfold Style.parameters Style.pen
  dsimp only
  cases color.isSet with
  | true =>
    -- The first reset is a zero. Those behind it, of channels and attributes, do nothing then.
    exact apply_resets_default _
  | false =>
    generalize underline.isSet = isUnderlined
    cases bold <;> cases italic <;> cases isUnderlined <;> rfl

/-! ## Runs of one style -/

theorem parameters_ne_nil {s : Style} (h : s.isPlain = false) : s.parameters ≠ [] := by
  obtain ⟨color, bold, italic, underline⟩ := s
  unfold Style.isPlain at h
  unfold Style.parameters
  dsimp only at h ⊢
  generalize color.isSet = isColored at h ⊢
  generalize underline.isSet = isUnderlined at h ⊢
  cases isColored <;> cases bold <;> cases italic <;> cases isUnderlined <;>
    first | exact List.cons_ne_nil _ _ | cases h

/-- A plain style is drawn with the default pen. -/
theorem pen_of_isPlain {s : Style} (h : s.isPlain = true) : s.pen = .default := by
  obtain ⟨color, bold, italic, underline⟩ := s
  simp only [Style.isPlain, Bool.and_eq_true, Bool.not_eq_true'] at h
  obtain ⟨⟨⟨hcolor, rfl⟩, rfl⟩, hunderline⟩ := h
  simp [Style.pen, hcolor, hunderline, Pen.default]

/-- Text between the two sequences of a style. -/
theorem draws_wrap {s : Style} (hs : s.isPlain = false) {text : Bytes} (h : Sgr.escape ∉ text) :
    Draws .default (Sgr.wrap s.parameters text) (text.map (·, s.pen)) .default := by
  have hne := parameters_ne_nil hs
  have hset := draws_sequence .default hne
  have hreset := draws_sequence s.pen (List.map_eq_nil_iff (f := Sgr.resetOf).not.mpr hne)
  rw [apply_parameters] at hset
  rw [apply_resets] at hreset
  have hall := (hset.append (draws_text s.pen h)).append hreset
  rwa [List.nil_append, List.append_nil] at hall

theorem map_cell_line (s : Style) {line : Bytes} (h : lineFeed ∉ line) :
    line.map s.cell = line.map (·, s.pen) := by
  refine List.map_congr_left fun b hb => ?_
  have hne : b ≠ lineFeed := fun heq => h (heq ▸ hb)
  rw [Style.cell, if_neg hne]

theorem draws_styledLine {s : Style} (hs : s.isPlain = false) {line : Bytes}
    (hfeed : lineFeed ∉ line) (hescape : Sgr.escape ∉ line) :
    Draws .default (styledLine s line) (line.map s.cell) .default := by
  rw [map_cell_line s hfeed]
  cases line with
  | nil => exact .nil _
  | cons b rest => exact draws_wrap hs hescape

/-- Lines of a style, with line feeds between them that are drawn with the default pen. -/
theorem draws_lines {s : Style} (hs : s.isPlain = false) {lines : List Bytes}
    (h : ∀ line ∈ lines, lineFeed ∉ line ∧ Sgr.escape ∉ line) :
    Draws .default (Bytes.join [lineFeed] (lines.map (styledLine s)))
      ((Bytes.join [lineFeed] lines).map s.cell) .default := by
  induction lines with
  | nil => exact .nil _
  | cons line rest ih =>
    obtain ⟨⟨hfeed, hescape⟩, hrest⟩ := List.forall_mem_cons.mp h
    have hline := draws_styledLine hs hfeed hescape
    cases rest with
    | nil => exact hline
    | cons next rest =>
      have hbreak : Draws .default [lineFeed] ([lineFeed].map s.cell) .default :=
        draws_text .default (by decide)
      have hall := (hline.append hbreak).append (ih hrest)
      rwa [← List.map_append, ← List.map_append] at hall

/-- **A run of one style** is drawn with its pen, and its line feeds with the default one. -/
theorem draws_styledText (s : Style) {text : Bytes} (h : Sgr.escape ∉ text) :
    Draws .default (styledText s text) (text.map s.cell) .default := by
  unfold styledText
  cases hs : s.isPlain with
  | true =>
    have hcell (b : UInt8) : s.cell b = (b, .default) := by
      rw [Style.cell, pen_of_isPlain hs, ite_self]
    rw [if_pos rfl, List.map_congr_left fun b _ => hcell b]
    exact draws_text .default h
  | false =>
    have hpieces : ∀ line ∈ text.splitOn lineFeed, lineFeed ∉ line ∧ Sgr.escape ∉ line :=
      fun line hline =>
        ⟨(Bytes.mem_splitOn hline).1, fun hmem => h ((Bytes.mem_splitOn hline).2 hmem)⟩
    have hlines := draws_lines hs hpieces
    rwa [Bytes.join_splitOn] at hlines

/-! ## The runs of a source -/

/-- **The runs put together** are what they were made of. -/
theorem runsOf_flatten (cells : List (Style × UInt8)) :
    ((runsOf cells).flatMap fun run => run.2.map (run.1, ·)) = cells := by
  induction cells with
  | nil => rfl
  | cons cell rest ih =>
    obtain ⟨s, b⟩ := cell
    unfold runsOf
    cases hruns : runsOf rest with
    | nil =>
      rw [hruns] at ih
      simp [← ih]
    | cons run runs =>
      obtain ⟨s', text⟩ := run
      rw [hruns] at ih
      dsimp only
      split
      · rename_i heq
        simp [← ih, heq]
      · simp [← ih]

/-- Runs are drawn one after the other. -/
theorem draws_runs {runs : List (Style × Bytes)} (h : ∀ run ∈ runs, Sgr.escape ∉ run.2) :
    Draws .default (runs.flatMap fun run => styledText run.1 run.2)
      (runs.flatMap fun run => run.2.map run.1.cell) .default := by
  induction runs with
  | nil => exact .nil _
  | cons run rest ih =>
    obtain ⟨hrun, hrest⟩ := List.forall_mem_cons.mp h
    rw [List.flatMap_cons, List.flatMap_cons]
    exact (draws_styledText run.1 hrun).append (ih hrest)

/-- **The pieces of a source** draw its bytes, each with the pen of its style. -/
theorem draws_pieces {source : Bytes} (highlights : List Highlight) (h : Sgr.escape ∉ source) :
    Draws .default (ansiPieces source highlights).flatten
      (List.zipWith Style.cell (paint source highlights) source) .default := by
  have hruns := runsOf_flatten ((paint source highlights).zip source)
  have hescape : ∀ run ∈ runsOf ((paint source highlights).zip source), Sgr.escape ∉ run.2 := by
    intro run hrun hmem
    have hcell : (run.1, Sgr.escape) ∈ (paint source highlights).zip source := by
      rw [← hruns]
      exact List.mem_flatMap.mpr ⟨run, hrun, List.mem_map_of_mem hmem⟩
    exact h (List.of_mem_zip hcell).2
  have hdraws := draws_runs hescape
  have hcells : ((runsOf ((paint source highlights).zip source)).flatMap fun run =>
      run.2.map run.1.cell) = List.zipWith Style.cell (paint source highlights) source := by
    calc _ = ((runsOf ((paint source highlights).zip source)).flatMap fun run =>
              run.2.map (run.1, ·)).map fun cell => cell.1.cell cell.2 := by
            simp [List.map_flatMap, Function.comp_def]
      _ = _ := by rw [hruns, List.map_zip_eq_zipWith]; rfl
  rw [hcells] at hdraws
  rw [ansiPieces, ← List.flatMap_def]
  exact hdraws

/-! ## The output of a source -/

/-- Pieces that are written one after the other all arrive. -/
theorem ansiOutput_run (source : Bytes) (highlights : List Highlight) :
    (ansiOutput source highlights true).run none =
      ((ansiPieces source highlights).flatten, none) := by
  rw [ansiOutput, if_pos rfl, Output.all_eq (List.forall_mem_map.mpr fun _ _ => rfl), Output.run]
  simp [List.flatMap_assoc, List.flatMap_map, Output.write]

/-- **A terminal shows exactly what is painted.**

Reading the output of a source without escape bytes, it draws the bytes of the source in order: a
line feed with the default pen, every other byte with the pen of its painted style. At the end it is
as it was at the start. The painted style of a byte is that of the highlights that cover it: the
last color and the last underline that are set, bold and italic when one of them is. -/
theorem ansiOutput_shows {source : Bytes} (highlights : List Highlight)
    (h : Sgr.escape ∉ source) :
    ∃ output, (ansiOutput source highlights true).run none = (output, none) ∧
      Terminal.start.feed output = { Terminal.start with
        drawn := List.zipWith
          (fun s b => (b, if b = lineFeed then Pen.default else s.pen))
          (paint source highlights) source } ∧
      (paint source highlights).length = source.length ∧
      ∀ i < source.length, (paint source highlights)[i]? =
        some (.layered ((covering highlights i).map Highlight.style)) := by
  refine ⟨_, ansiOutput_run source highlights, draws_pieces highlights h [], ?_, fun i hi => ?_⟩
  · rw [paint, List.length_map, List.length_range]
  · rw [paint, List.getElem?_map, List.getElem?_range hi, Option.map_some, styleAt_eq]

/-- Two overlapping highlights with bounds outside of the source. Channels of the color are numbers
that stand for attributes elsewhere, and its reset is that of the attributes too. -/
theorem ansiOutput_shows_overlap :
    let source := utf8 "a\nb"
    let highlights : List Highlight :=
      [⟨-1, 9, .keyword, ⟨⟨0xFF010409⟩, true, false, .unset⟩⟩,
       ⟨1, 3, .keyword, ⟨.unset, false, true, ⟨0xFF000001⟩⟩⟩]
    Sgr.escape ∉ source ∧ ∃ output, (ansiOutput source highlights true).run none = (output, none) ∧
      Terminal.start.feed output = ⟨.default, .text,
        [(97, ⟨some (1, 4, 9), true, false, false⟩), (10, .default),
         (98, ⟨some (1, 4, 9), true, true, true⟩)]⟩ := by
  intro source highlights
  have hescape : Sgr.escape ∉ source := by decide
  obtain ⟨output, hrun, hfeed, -⟩ := ansiOutput_shows highlights hescape
  exact ⟨hescape, output, hrun, hfeed.trans (by decide +kernel)⟩

end Yurin
