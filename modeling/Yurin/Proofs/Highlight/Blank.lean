import Yurin.Proofs.Diagnostic.Underlines

/-!
# Highlights of blank text

The lexer knows fewer blanks than `Rune.isSpace`: a blank character that is none to the lexer, such
as a no-break space, is an unrecognised token, and the error under it is drawn on blank text.
There is no other way in which a span can be blank: every other token that is drawn on begins with a
visible character, and at the end of the source an error is drawn under the last character that is
not blank.
-/

namespace Yurin

/-! ## Text that is not blank -/

theorem Lexer.isVisible_space {b : UInt8} (h : isVisible b = true) :
    b < 128 ∧ (Rune.valid b.toNat).isSpace = false := by
  simp only [isVisible, Bool.and_eq_true, decide_eq_true_eq, UInt8.le_iff_toNat_le] at h
  have h₁ : 33 ≤ b.toNat := h.1
  have h₂ : b.toNat ≤ 126 := h.2
  refine ⟨UInt8.lt_iff_toNat_lt.mpr (Nat.lt_of_le_of_lt h₂ (by decide)), ?_⟩
  simp only [Rune.isSpace, Bool.or_eq_false_iff, Bool.and_eq_false_iff, decide_eq_false_iff_not,
    beq_eq_false_iff_ne]
  omega

/-- Any beginning of a text that begins visibly is not blank. -/
theorem Lexer.BeginsVisibly.take_not_blank {text : Bytes} (h : BeginsVisibly text) {n : Nat}
    (hn : 0 < n) : (Bytes.isBlank (text.take n)) = false := by
  obtain ⟨b, rest, rfl, hb⟩ := h
  obtain ⟨m, rfl⟩ := Nat.exists_eq_succ_of_ne_zero (Nat.pos_iff_ne_zero.mp hn)
  obtain ⟨hascii, hspace⟩ := isVisible_space hb
  rw [List.take_succ_cons]
  exact Bytes.isBlank_cons hascii hspace _

theorem Lexer.BeginsVisibly.leadingSpace {text : Bytes} (h : BeginsVisibly text) :
    text.leadingSpace = 0 := by
  obtain ⟨b, rest, rfl, hb⟩ := h
  obtain ⟨hascii, hspace⟩ := isVisible_space hb
  have hfirst : ¬ (decodeRune b rest).1.isSpace = true := by simp [decodeRune, hascii, hspace]
  simp [Bytes.leadingSpace, runes_cons, hfirst, total]

/-! ## Spans -/

/-- A token that is drawn on, or complained about as something else than unrecognised, begins
visibly. -/
theorem isInk_of_category {k : Kind} {c : Category} (h : k.category? = some c) :
    Lexer.isInk k = true := by
  cases k with
  | whitespace | newline | error => cases h
  | _ => rfl

theorem isInk_of_significant {k : Kind} (h : k.isTrivia = false) (he : k ≠ .error) :
    Lexer.isInk k = true := by
  cases k with
  | whitespace | newline => cases h
  | error => contradiction
  | _ => rfl

/-- A beginning of a visible token is not blank. -/
theorem Token.Within.not_blank {t : Token} {source before behind : Bytes}
    (h : t.Within source before behind) (hv : Lexer.BeginsVisibly t.text) {stop : Int}
    (hlt : t.start < stop) (hle : stop ≤ t.stop) :
    (source.slice t.start.toNat stop.toNat).isBlank = false := by
  rw [h.start] at hlt ⊢
  rw [h.stop] at hle
  obtain ⟨n, rfl⟩ : ∃ n : Nat, stop = before.length + n := ⟨(stop - before.length).toNat, by omega⟩
  rw [← Int.natCast_add, Int.toNat_natCast, Int.toNat_natCast, h.slice (by omega)]
  exact hv.take_not_blank (by omega)

/-- **The passes draw on blank text** only where an unrecognised token is blank. -/
theorem Drawn.not_blank {source : Bytes} {start stop : Int} {c : Category}
    (h : Drawn source start stop c) (hlt : start < stop)
    (herror : c = .error → ∀ t ∈ lex source, t.kind = .error → t.text.isBlank = false) :
    (source.slice start.toNat stop.toNat).isBlank = false := by
  cases h with
  | @token t c ht hc =>
    obtain ⟨before, behind, hw, ⟨heof, -, -⟩ | ⟨hne, -⟩⟩ := mem_lex ht
    · rw [heof] at hc
      cases hc
    · have hv := text_visible ht hne (isInk_of_category hc)
      rw [hv.leadingSpace, Int.natCast_zero, Int.add_zero] at hlt ⊢
      exact hw.not_blank hv hlt (by omega)
  | @name t c ht hk hc =>
    obtain ⟨before, behind, hw, ⟨heof, -, -⟩ | ⟨hne, -⟩⟩ := mem_lex ht
    · rw [heof] at hk
      cases hk
    · exact hw.not_blank (text_visible ht hne (by rw [hk]; rfl)) hlt (Int.le_refl _)
  | underline hd hr =>
    rw [diagnose_eq] at hd
    obtain ⟨c, hc, rfl⟩ := List.mem_map.mp hd
    obtain ⟨ht, htrivia⟩ := mem_complaints_parse hc
    have hunderlined := underlined_token ht c.message
    rw [hr] at hunderlined
    cases hunderlined with
    | lastInk hk hink =>
      obtain ⟨hbytes, -, hblank⟩ := hink.bytes
      rw [← Int.natCast_add, Int.toNat_natCast, Int.toNat_natCast, hbytes, Bytes.slice_append]
      exact hblank
    | token hk =>
      obtain ⟨before, behind, hw, -⟩ := mem_lex ht
      by_cases herr : c.offending.kind = .error
      · rw [hw.slice_text]
        exact herror rfl _ ht herr
      · have hne : c.offending.text ≠ [] := fun hempty => hk ((kind_eq_eof_iff ht).mpr hempty)
        exact hw.not_blank (text_visible ht hne (isInk_of_significant htrivia herr)) hlt
          (Int.le_refl _)

/-- An unrecognised token is drawn on, when the theme styles errors. -/
theorem errorHighlights_of_error {theme : Theme} (hplain : (theme.style .error).isPlain = false)
    {source : Bytes} {t : Token} (ht : t ∈ lex source) (hk : t.kind = .error) :
    ⟨t.start, t.stop, .error, theme.style .error⟩ ∈
      errorHighlights theme source (diagnose source) := by
  have heof : t.kind ≠ .eof := by simp [hk]
  refine List.mem_filterMap.mpr ⟨_, List.mem_map_of_mem (complaint_of_error ht hk), ?_⟩
  rw [underlineRange?_token ht heof]
  exact Theme.highlight?_eq_some.mpr ⟨start_lt_stop ht heof, hplain, rfl⟩

/-- **When highlights are not blank.** No span that an engine returns for a source covers blank text
only, exactly when the theme leaves errors plain or no unrecognised token of the source is blank. -/
theorem Engine.highlight_not_blank_iff {κ : Type} [DecidableEq κ] {e : Engine κ} (he : e.Reachable)
    (source : Bytes) :
    (∀ patience spans diagnostics,
        e.eval patience (e.highlight source) = .ok (spans, diagnostics) →
          ∀ h ∈ spans, (source.slice h.start.toNat h.stop.toNat).isBlank = false) ↔
      (e.theme.style .error).isPlain = true ∨
        ∀ t ∈ lex source, t.kind = .error → t.text.isBlank = false := by
  have hserves := e.highlight_serves source
  constructor
  · intro hall
    rw [or_iff_not_imp_left, Bool.not_eq_true]
    intro hplain t ht hk
    obtain ⟨⟨spans, diagnostics⟩, heq⟩ := (serves_run hserves he.faithful none).2.2
    obtain ⟨a, ha, hfound⟩ := (serves_run hserves he.faithful none).2.1 _ heq
    obtain ⟨rfl, rfl⟩ := Prod.mk.inj hfound
    obtain ⟨hsource, -, -, hdiagnostics, -⟩ := Analysis.of?_eq_ok ha
    obtain ⟨before, behind, hw, -⟩ := mem_lex ht
    have hmem := errorHighlights_of_error hplain ht hk
    rw [← hdiagnostics, ← hsource] at hmem
    have hblank := hall none _ _ heq _ (List.mem_append_right _ hmem)
    rwa [hw.start, hw.stop, ← Int.natCast_add, Int.toNat_natCast, Int.toNat_natCast,
      hw.slice (Nat.le_refl _), List.take_length] at hblank
  · intro herror patience spans diagnostics heq h hh
    obtain ⟨a, ha, hfound⟩ := (serves_run hserves he.faithful patience).2.1 _ heq
    obtain ⟨rfl, rfl⟩ := Prod.mk.inj hfound
    obtain ⟨hdrawn, hrange⟩ := mem_highlights ha hh
    obtain ⟨hlt, hplain, -⟩ := Theme.highlight?_eq_some.mp hdrawn
    refine hrange.not_blank hlt fun hc => herror.resolve_left ?_
    rw [← hc, hplain]
    exact Bool.false_ne_true

/-- A no-break space is drawn as an error. -/
theorem Engine.highlight_blank_noBreakSpace :
    ¬ ∀ patience spans diagnostics,
      standard.eval patience (standard.highlight (utf8 "\u00a0")) = .ok (spans, diagnostics) →
        ∀ h ∈ spans, (Bytes.slice (utf8 "\u00a0") h.start.toNat h.stop.toNat).isBlank = false := by
  have hstandard : standard.Reachable := create_reachable .default 0
  rw [Engine.highlight_not_blank_iff hstandard]
  decide +kernel

end Yurin
