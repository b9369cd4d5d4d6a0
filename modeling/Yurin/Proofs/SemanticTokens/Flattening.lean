import Mathlib.Data.List.Forall2
import Yurin.Proofs.SemanticTokens.Segments

/-!
# Flattening highlights of any ranges

Highlights may have any integers as their bounds: negative ones, ones past the end of the source,
and a stop before the start. The tokens are those of the lines that the kept highlights have bytes
on, whatever the bounds are (`LineParts`).

`ofHighlightsChecked?` makes the same tokens with slices that have to exist, and it never fails
(`ofHighlightsChecked?_eq`): flattening takes no slice out of range. `flattening_sound` puts this
together with what is known of the highlights that are kept.
-/

namespace Yurin

/-- The bytes `[first, last)` of a text, if these are two offsets of it in order. -/
def Bytes.slice? (text : Bytes) (first last : Int) : Option Bytes :=
  if 0 ≤ first ∧ first ≤ last ∧ last ≤ text.length then
    some (text.slice first.toNat last.toNat)
  else none

theorem Bytes.slice?_eq {text : Bytes} {first last : Int} (h₀ : 0 ≤ first) (h : first ≤ last)
    (h' : last ≤ text.length) : text.slice? first last = some (text.slice first.toNat last.toNat) :=
  if_pos ⟨h₀, h, h'⟩

/-- No line reaches over the end of the text. -/
theorem LineIndex.lineBounds_le (text : Bytes) (line : Int) :
    ((ofText text).lineBounds line).2 ≤ text.length := by
  have hlines : (ofText text).lines = text.count lineFeed + 1 := by
    rw [lines, ofText, List.length_cons, lineStartsAfter_length]
  by_cases hout : line < 1 ∨ ((ofText text).lines : Int) < line
  · rw [lineBounds, if_pos hout]
    exact Nat.le_refl _
  · obtain ⟨number, rfl⟩ : ∃ number : Nat, line = (number : Int) + 1 :=
      ⟨(line - 1).toNat, by omega⟩
    obtain ⟨before, part, behind, hline⟩ :=
      Bytes.exists_isLine (show number ≤ text.count lineFeed by omega)
    rw [hline.lineBounds, hline.split, @List.length_append _ _ behind]
    exact Nat.le_add_right _ _

namespace SemanticToken

/-! ## Slices that have to exist -/

/-- The part of a span on a line, if there is any, with slices that have to exist. -/
def onLineChecked? (source : Bytes) (index : LineIndex) (s : Span) (line : Nat) :
    Option (Option SemanticToken) :=
  let (lineStart, lineStop) := index.lineBounds line
  let first := max s.start lineStart
  let last := min s.stop lineStop
  if last ≤ first then some none
  else do
    let left ← source.slice? lineStart first
    let shown ← source.slice? first last
    return some {
      line := (line - 1).toUInt32
      start := left.utf16Length.toUInt32
      length := shown.utf16Length.toUInt32
      type := s.type.code
      modifiers := s.modifiers }

/-- The tokens of a span, with slices that have to exist. -/
def ofSpanChecked? (source : Bytes) (index : LineIndex) (s : Span) :
    Option (List SemanticToken) := do
  let first := (index.lineColumn s.start).1
  let last := (index.lineColumn (s.stop - 1)).1
  let found ← (List.range' first (last + 1 - first)).mapM (onLineChecked? source index s)
  return found.filterMap id

/-- The tokens of highlights, with slices that have to exist. -/
def ofHighlightsChecked? (source : Bytes) (highlights : List Highlight) :
    Option (List SemanticToken) := do
  let found ← (keptSpans highlights).mapM (ofSpanChecked? source (.ofText source))
  return found.flatten

theorem onLineChecked?_eq (source : Bytes) (s : Span) (line : Nat) :
    onLineChecked? source (.ofText source) s line =
      some (onLine? source (.ofText source) s line) := by
  have hle := LineIndex.lineBounds_le source line
  unfold onLineChecked? onLine?
  generalize (LineIndex.ofText source).lineBounds line = bounds at hle ⊢
  obtain ⟨lineStart, lineStop⟩ := bounds
  dsimp only at hle ⊢
  by_cases hempty : min s.stop lineStop ≤ max s.start lineStart
  · rw [if_pos hempty, if_pos (by omega)]
  · rw [if_neg hempty, if_neg (by omega), Bytes.slice?_eq (by omega) (by omega) (by omega),
      Bytes.slice?_eq (by omega) (by omega) (by omega)]
    simp

theorem ofSpanChecked?_eq (source : Bytes) (s : Span) :
    ofSpanChecked? source (.ofText source) s = some (ofSpan source (.ofText source) s) := by
  have hline : onLineChecked? source (.ofText source) s =
      fun line => pure (onLine? source (.ofText source) s line) :=
    funext (onLineChecked?_eq source s)
  unfold ofSpanChecked? ofSpan
  dsimp only
  rw [hline, List.mapM_pure, pure_bind, List.filterMap_map]
  rfl

/-- **Flattening takes no slice out of range.** -/
theorem ofHighlightsChecked?_eq (source : Bytes) (highlights : List Highlight) :
    ofHighlightsChecked? source highlights = some (ofHighlights source highlights) := by
  have hspan : ofSpanChecked? source (.ofText source) =
      fun s => pure (ofSpan source (.ofText source) s) :=
    funext (ofSpanChecked?_eq source)
  unfold ofHighlightsChecked? ofHighlights
  rw [hspan, List.mapM_pure, pure_bind, List.flatMap_def]
  rfl

/-! ## Parts of lines -/

/-- The highlights that are kept are those of the spans that are. -/
theorem forall₂_keptHighlights (highlights : List Highlight) :
    List.Forall₂ (fun s x => span? x.1 x.2 = some s) (keptSpans highlights)
      (keptHighlights highlights) := by
  have hall {xs : List Span} (hxs : ∀ s ∈ xs, s ∈ spans highlights) :
      List.Forall₂ (fun s (x : Nat × Highlight) => span? x.1 x.2 = some s) xs
        (xs.filterMap fun s => highlights[s.order]?.map fun h => (s.order, h)) := by
    induction xs with
    | nil => exact .nil
    | cons s rest ih =>
      obtain ⟨hs, hrest⟩ := List.forall_mem_cons.mp hxs
      obtain ⟨h, hget, hspan⟩ := exists_highlight hs
      rw [List.filterMap_cons_some (by rw [hget]; rfl)]
      exact .cons hspan (ih hrest)
  exact hall fun s hs => mem_spans_of_mem_keptSpans hs

end SemanticToken

/-- What a highlight shows: its parts of all lines that it has bytes on, line after line. -/
structure LineParts (source : Bytes) (h : Highlight) (parts : List Segment) : Prop where
  mem_iff : ∀ p, p ∈ parts ↔ SegmentOf source h p
  ascending : parts.Pairwise fun p q => p.line < q.line

open SemanticToken

/-- What flattening makes of highlights. Those that are kept are some of those that compete, stand
one behind the other, and are all those that no later one meets. Their tokens are those of their
parts of the lines, for which no slice is taken out of range. -/
structure SoundFlattening (source : Bytes) (highlights : List Highlight) : Prop where
  competes : ∀ x ∈ keptHighlights highlights, Competes highlights x.1 x.2
  apart : (keptHighlights highlights).Pairwise fun x y => x.2.stop ≤ y.2.start
  keeps : ∀ i h, Competes highlights i h →
    (∀ j g, i < j → Competes highlights j g → ¬ h.Meets g) → (i, h) ∈ keptHighlights highlights
  inRange : ofHighlightsChecked? source highlights = some (ofHighlights source highlights)
  tokens : ∃ parts, List.Forall₂ (fun x => LineParts source x.2) (keptHighlights highlights) parts ∧
    ofHighlights source highlights = parts.flatten.map Segment.token ∧
    (source.length < UInt32.size → ∀ p ∈ parts.flatten, p.Fits)

/-- **Flattening is sound**, whatever the bounds of the highlights are. -/
theorem flattening_sound (source : Bytes) (highlights : List Highlight) :
    SoundFlattening source highlights where
  competes _ hx := competes_of_mem hx
  apart := keptHighlights_pairwise highlights
  keeps _ _ hc hunmet := kept_of_unmet hc hunmet
  inRange := ofHighlightsChecked?_eq source highlights
  tokens := by
    refine ⟨(keptSpans highlights).map (segmentsOf source), ?_, ?_, fun hsize p hp => ?_⟩
    · refine List.forall₂_map_right_iff.mpr ((forall₂_keptHighlights highlights).flip.imp ?_)
      intro x s hspan
      exact ⟨fun p => mem_segmentsOf hspan, segmentsOf_pairwise source s⟩
    · rw [ofHighlights_eq, segments, List.flatMap_def]
    · rw [← List.flatMap_def, List.mem_flatMap] at hp
      obtain ⟨s, hs, hp⟩ := hp
      obtain ⟨h, -, hspan⟩ := exists_highlight (mem_spans_of_mem_keptSpans hs)
      exact ((mem_segmentsOf hspan).mp hp).fits hsize

end Yurin
