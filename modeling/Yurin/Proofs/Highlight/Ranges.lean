import Mathlib.Data.List.Pairwise
import Yurin.Proofs.Highlight.Blank
import Yurin.Proofs.Token.Boundaries

/-!
# The ranges of highlights

Errors apart, a highlight covers one token, up to the blanks at its end if the token has a category
of its own (`Drawn.exists_token`). Two such ranges are therefore the same or do not meet, they begin
and end between characters, and they begin with a visible character. Errors may be drawn across
them.

`ProperHighlights` is what semantic tokens rely on, and `highlights_proper` shows it of the
highlights of every source.
-/

namespace Yurin

open Lexer

/-- Where the part of a token that is drawn on ends. -/
def Token.inkStop (t : Token) : Int :=
  match t.kind.category? with
  | some _ => t.stop - t.text.trailingSpace
  | none => t.stop

theorem Token.inkStop_le (t : Token) : t.inkStop ≤ t.stop := by
  unfold inkStop
  split
  · omega
  · exact Int.le_refl _

/-- **A highlight other than an error covers a token**, from its first character on. -/
theorem Drawn.exists_token {source : Bytes} {start stop : Int} {c : Category}
    (h : Drawn source start stop c) (hc : c ≠ .error) :
    ∃ t ∈ lex source, BeginsVisibly t.text ∧ start = t.start ∧ stop = t.inkStop ∧ c.IsShown := by
  have hvisible {t : Token} (ht : t ∈ lex source) (hk : isInk t.kind = true)
      (heof : t.kind ≠ .eof) : BeginsVisibly t.text := by
    obtain ⟨before, behind, hw, ⟨h, -, -⟩ | ⟨hne, -⟩⟩ := mem_lex ht
    · contradiction
    · exact text_visible ht hne hk
  cases h with
  | @token t c ht hcategory =>
    have hv := hvisible ht (isInk_of_category hcategory) fun heof => by
      rw [heof] at hcategory
      cases hcategory
    refine ⟨t, ht, hv, ?_, ?_, Kind.category?_shown hcategory⟩
    · rw [hv.leadingSpace, Int.natCast_zero, Int.add_zero]
    · simp only [Token.inkStop, hcategory]
  | @name t c ht hk hshown =>
    have hv := hvisible ht (by rw [hk]; rfl) (by rw [hk]; nofun)
    refine ⟨t, ht, hv, rfl, ?_, hshown⟩
    simp only [Token.inkStop, hk, Kind.category?]
  | underline => exact absurd rfl hc

/-! ## Ranges of tokens -/

/-- In a list in which everything ends before what follows begins, no two ranges meet. -/
theorem apart_of_pairwise {α : Type} {start stop : α → Int} {xs : List α}
    (h : xs.Pairwise fun a b => stop a ≤ start b) {a b : α} (ha : a ∈ xs) (hb : b ∈ xs)
    (hne : a ≠ b) : stop a ≤ start b ∨ stop b ≤ start a := by
  have hpair : xs.Pairwise fun a b => stop a ≤ start b ∨ stop b ≤ start a := h.imp fun h => .inl h
  have : Std.Symm fun a b : α => stop a ≤ start b ∨ stop b ≤ start a := ⟨fun _ _ h => h.symm⟩
  exact hpair.forall ha hb hne

section Tokens

variable {source : Bytes} {t u : Token}

/-- Two tokens of a source are the same or do not meet. -/
theorem lex_apart (ht : t ∈ lex source) (hu : u ∈ lex source) :
    t = u ∨ t.stop ≤ u.start ∨ u.stop ≤ t.start := by
  rw [or_iff_not_imp_left]
  exact apart_of_pairwise (lex_pairwise source) ht hu

/-- The part of a token that is drawn on ends between two characters. -/
theorem boundary_inkStop (ht : t ∈ lex source) : Boundary source t.inkStop.toNat := by
  obtain ⟨hstart, hstop⟩ := lex_boundary ht
  obtain ⟨before, behind, hw, -⟩ := mem_lex ht
  have hlen := congrArg List.length hw.split
  simp only [List.length_append] at hlen
  have htrim := hstart.trimEnd hstop (by rw [hw.start, hw.stop]; omega) (by rw [hw.stop]; omega)
  rw [hw.slice_text] at htrim
  unfold Token.inkStop
  split
  · rwa [show (t.stop - t.text.trailingSpace).toNat = t.stop.toNat - t.text.trailingSpace by omega]
  · exact hstop

end Tokens

/-! ## Ranges of highlights -/

/-- The highlight is not empty, lies in the source between two of its boundaries, and begins with a
byte that is no line feed. -/
structure Highlight.Ranged (source : Bytes) (h : Highlight) : Prop where
  start_nonneg : 0 ≤ h.start
  start_lt : h.start < h.stop
  stop_le : h.stop ≤ source.length
  boundary_start : Boundary source h.start.toNat
  boundary_stop : Boundary source h.stop.toNat
  head_ne : source[h.start.toNat]? ≠ some lineFeed

/-- The ranges are the same, or do not meet. -/
def Highlight.Compatible (h g : Highlight) : Prop :=
  h.start = g.start ∧ h.stop = g.stop ∨ h.stop ≤ g.start ∨ g.stop ≤ h.start

/-- The highlights but the errors have ranges of this kind, which do not cross, and they are
shown. -/
structure ProperHighlights (source : Bytes) (highlights : List Highlight) : Prop where
  ranged : ∀ h ∈ highlights, h.category ≠ .error → h.Ranged source ∧ h.category.IsShown
  compatible : ∀ h ∈ highlights, ∀ g ∈ highlights, h.category ≠ .error → g.category ≠ .error →
    h.Compatible g

section Passes

variable {theme : Theme} {source : Bytes} {a : Analysis} {h g : Highlight}

theorem ranged_of_mem (ha : Analysis.of? source = .ok a) (hh : h ∈ a.highlights theme)
    (hc : h.category ≠ .error) : h.Ranged source ∧ h.category.IsShown := by
  obtain ⟨hdrawn, hrange⟩ := mem_highlights ha hh
  obtain ⟨hlt, -, -⟩ := Theme.highlight?_eq_some.mp hdrawn
  obtain ⟨hnonneg, hle⟩ := hrange.inside
  obtain ⟨t, ht, hv, hstart, hstop, hshown⟩ := hrange.exists_token hc
  refine ⟨⟨hnonneg, hlt, hle, ?_, ?_, ?_⟩, hshown⟩
  · rw [hstart]
    exact (lex_boundary ht).1
  · rw [hstop]
    exact boundary_inkStop ht
  · obtain ⟨b, rest, htext, hb⟩ := hv
    obtain ⟨before, behind, hw, -⟩ := mem_lex ht
    have hbyte : source[h.start.toNat]? = some b := by
      rw [hstart, hw.start, Int.toNat_natCast, hw.split, htext]
      simp
    rw [hbyte]
    rintro ⟨⟩
    cases hb

theorem compatible_of_mem (ha : Analysis.of? source = .ok a) (hh : h ∈ a.highlights theme)
    (hg : g ∈ a.highlights theme) (hhc : h.category ≠ .error) (hgc : g.category ≠ .error) :
    h.Compatible g := by
  obtain ⟨t, ht, -, hstart, hstop, -⟩ := (mem_highlights ha hh).2.exists_token hhc
  obtain ⟨u, hu, -, hstart', hstop', -⟩ := (mem_highlights ha hg).2.exists_token hgc
  have htle := t.inkStop_le
  have hule := u.inkStop_le
  rcases lex_apart ht hu with rfl | hle | hle
  · exact .inl ⟨by rw [hstart, hstart'], by rw [hstop, hstop']⟩
  · exact .inr (.inl (by omega))
  · exact .inr (.inr (by omega))

/-- **The highlights of a source are proper.** -/
theorem highlights_proper (ha : Analysis.of? source = .ok a) :
    ProperHighlights source (a.highlights theme) :=
  ⟨fun _ hh => ranged_of_mem ha hh, fun _ hh _ hg => compatible_of_mem ha hh hg⟩

end Passes

end Yurin
