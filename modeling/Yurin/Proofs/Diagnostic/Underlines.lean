import Mathlib.Data.List.Forall2
import Yurin.Proofs.Highlight.Spans
import Yurin.Proofs.Token.Coverage

/-!
# Where diagnostics point

The parser reports a token by its line and column only. The offset of a diagnostic is looked up from
them, and the range to underline is computed from the offset again. Since every token is placed
where the line index says, nothing is lost on this way: the diagnostic is at the token that was
reported (`PointsAt`), and the token is what is underlined (`Underlined`).

The end of input has nothing to underline. There the last character of the source that is not blank
stands in for it, and a blank source has no underline.
-/

namespace Yurin

/-! ## Diagnostics of tokens -/

/-- The diagnostic is at the token: at its offset, line and column, which are the same place, and up
to its end. At the end of input it takes one byte behind the source. -/
structure Diagnostic.PointsAt (source : Bytes) (d : Diagnostic) (t : Token) : Prop where
  start_eq : d.start = t.start
  line_eq : d.line = t.line
  column_eq : d.column = t.column
  place_eq : ((LineIndex.ofText source).lineColumn d.start).1 = d.line ∧
    ((LineIndex.ofText source).lineColumn d.start).2 = d.column
  stop_eq : t.kind ≠ .eof → d.stop = t.stop
  at_end : t.kind = .eof → d.start = source.length ∧ d.stop = source.length + 1

/-- The diagnostic of a token that is placed in the source. -/
theorem Diagnostic.at_token {t : Token} {source : Bytes} (h : t.Placed source) (message : Bytes) :
    Diagnostic.at (.ofText source) t.line t.column message (some t) =
      ⟨t.start, if t.start < t.stop then t.stop else t.start + 1, t.line, t.column, message,
        .error⟩ := by
  rw [Diagnostic.at, h.offset_eq]

/-- The end of input is at the end of the source. -/
theorem eof_eq_length {t : Token} {source : Bytes} (ht : t ∈ lex source) (hk : t.kind = .eof) :
    t.start = source.length ∧ t.stop = source.length := by
  obtain ⟨before, behind, hw, ⟨-, hempty, rfl⟩ | ⟨hne, -⟩⟩ := mem_lex ht
  · have hsource : source = before := by simpa [hempty] using hw.split
    rw [hw.start, hw.stop, hempty, hsource]
    exact ⟨rfl, rfl⟩
  · exact absurd ((kind_eq_eof_iff ht).mp hk) hne

section Token

variable {source : Bytes} {t : Token}

/-- **The diagnostic of a token of the source is at this token.** -/
theorem pointsAt_token (ht : t ∈ lex source) (message : Bytes) :
    (Diagnostic.at (.ofText source) t.line t.column message (some t)).PointsAt source t := by
  obtain ⟨before, behind, hw, -⟩ := mem_lex ht
  have hplaced := hw.placed
  rw [Diagnostic.at_token hplaced]
  refine ⟨rfl, rfl, rfl, ⟨hplaced.line_eq, hplaced.column_eq⟩, fun hk => ?_, fun hk => ?_⟩
  · exact if_pos (start_lt_stop ht hk)
  · obtain ⟨hstart, hstop⟩ := eof_eq_length ht hk
    refine ⟨hstart, ?_⟩
    dsimp only
    rw [if_neg (by omega), hstart]

/-! ## Underlines of tokens -/

/-- What is underlined for a token: the token itself, and for the end of input the last character
that is not blank, if there is one. -/
inductive Underlined (source : Bytes) (t : Token) : Option (Int × Int) → Prop
  | token (hk : t.kind ≠ .eof) : Underlined source t (some (t.start, t.stop))
  | lastInk (hk : t.kind = .eof) {before behind : List (Rune × Bytes)} {r : Rune × Bytes}
      (h : source.LastInk before r behind) :
      Underlined source t (some ((before.flatMap (·.2)).length,
        (before.flatMap (·.2)).length + r.2.length))
  | nothing (hk : t.kind = .eof) (h : source.isBlank = true) : Underlined source t none

/-- At the end of the source, its last character that is not blank is underlined. -/
theorem underlined_end (hk : t.kind = .eof) {d : Diagnostic} (hd : d.start = source.length) :
    Underlined source t (underlineRange? source d) := by
  rw [underlineRange?, hd]
  dsimp only
  rw [if_pos (by omega), lastRune?]
  cases hlast : (runes source.trimEnd).getLast? with
  | none => exact .nothing hk (Bytes.isBlank_of_getLast?_trimEnd hlast)
  | some r =>
    obtain ⟨before, behind, hink, htrim⟩ := Bytes.getLast?_trimEnd hlast
    obtain ⟨hbytes, hne, -⟩ := hink.bytes
    have hpos := List.length_pos_iff.mpr hne
    have hlen := congrArg List.length hbytes
    simp only [List.length_append] at hlen
    have hlength : source.trimEnd.length = (before.flatMap (·.2)).length + r.2.length := by
      rw [htrim, List.length_append]
    have hunderlined := Underlined.lastInk hk hink
    simp only [Option.map_some, hlength, Nat.add_sub_cancel]
    rwa [show min (max (((before.flatMap (·.2)).length + r.2.length : Nat) : Int)
      ((before.flatMap (·.2)).length + 1)) source.length =
        (before.flatMap (·.2)).length + r.2.length by omega]

/-- A token other than the end of input is underlined from its start to its end. -/
theorem underlineRange?_token (ht : t ∈ lex source) (hk : t.kind ≠ .eof) (message : Bytes) :
    underlineRange? source (Diagnostic.at (.ofText source) t.line t.column message (some t)) =
      some (t.start, t.stop) := by
  have hpoints := pointsAt_token ht message
  obtain ⟨before, behind, hw, -⟩ := mem_lex ht
  have hnonneg := hw.placed.start_nonneg
  have hlt := start_lt_stop ht hk
  have hle := hw.placed.stop_le
  rw [underlineRange?, hpoints.start_eq, hpoints.stop_eq hk]
  dsimp only
  rw [if_neg (by omega)]
  congr 2 <;> omega

/-- **The range of a diagnostic of a token** is what is underlined for this token. -/
theorem underlined_token (ht : t ∈ lex source) (message : Bytes) :
    Underlined source t (underlineRange? source
      (Diagnostic.at (.ofText source) t.line t.column message (some t))) := by
  by_cases hk : t.kind = .eof
  · exact underlined_end hk ((pointsAt_token ht message).at_end hk).1
  · rw [underlineRange?_token ht hk]
    exact .token hk

/-- What is underlined is not empty. -/
theorem Underlined.start_lt (ht : t ∈ lex source) {start stop : Int}
    (h : Underlined source t (some (start, stop))) : start < stop := by
  cases h with
  | token hk => exact start_lt_stop ht hk
  | lastInk hk h =>
    have hpos := List.length_pos_iff.mpr h.bytes.2.1
    omega

end Token

/-! ## Diagnostics of a source -/

/-- There is one diagnostic for each complaint of the parser. -/
theorem diagnose_eq (source : Bytes) :
    diagnose source = (parse source).complaints.map fun c =>
      Diagnostic.at (.ofText source) c.offending.line c.offending.column c.message
        (some c.offending) := by
  rw [diagnose, Collector.ofComplaints]

/-- The underlines of the diagnostics of a source, in a theme that styles errors. -/
theorem errorHighlights_diagnose {theme : Theme} (hstyled : (theme.style .error).isPlain = false)
    (source : Bytes) :
    errorHighlights theme source (diagnose source) =
      ((diagnose source).map (underlineRange? source)).filterMap fun range =>
        range.map fun (start, stop) => ⟨start, stop, .error, theme.style .error⟩ := by
  rw [errorHighlights, List.filterMap_map]
  refine List.filterMap_congr fun d hd => ?_
  rw [diagnose_eq] at hd
  obtain ⟨c, hc, rfl⟩ := List.mem_map.mp hd
  obtain ⟨ht, -⟩ := mem_complaints_parse hc
  have hunderlined := underlined_token ht c.message
  dsimp only [Function.comp]
  generalize underlineRange? source _ = range at hunderlined ⊢
  cases range with
  | none => rfl
  | some range =>
    obtain ⟨start, stop⟩ := range
    exact Theme.highlight?_eq_some.mpr ⟨hunderlined.start_lt ht, hstyled, rfl⟩

/-- **Diagnostics point at the tokens that were reported.** Whatever calls an engine has got before,
a call with enough patience returns the diagnostics of any source. They are one for each token of
the source that the parser complains about, in this order, and at these tokens. In a theme that
styles errors their underlines are, in the same order, the ranges of these tokens, and for the end
of input the last character that is not blank. -/
theorem Engine.diagnostics_point {κ : Type} [DecidableEq κ] {e : Engine κ} (he : e.Reachable)
    (source : Bytes) :
    (∃ found, e.eval none (e.diagnostics source) = .ok found) ∧
      ∀ patience found, e.eval patience (e.diagnostics source) = .ok found →
        List.Forall₂ (fun c d => c.offending ∈ lex source ∧ d.PointsAt source c.offending ∧
          d.message = c.message) (parse source).complaints found ∧
        ∃ ranges, List.Forall₂ (fun c range => Underlined source c.offending range)
            (parse source).complaints ranges ∧
          ∀ theme : Theme, (theme.style .error).isPlain = false →
            errorHighlights theme source found = ranges.filterMap fun range =>
              range.map fun (start, stop) => ⟨start, stop, .error, theme.style .error⟩ := by
  have hserves := e.diagnostics_serves source
  refine ⟨(serves_run hserves he.faithful none).2.2, fun patience found hfound => ?_⟩
  have heq : found = diagnose source := (serves_run hserves he.faithful patience).2.1 _ hfound
  subst heq
  refine ⟨?_, (diagnose source).map (underlineRange? source), ?_,
    fun theme hstyled => errorHighlights_diagnose hstyled source⟩
  · rw [diagnose_eq, List.forall₂_map_right_iff, List.forall₂_same]
    intro c hc
    obtain ⟨ht, -⟩ := mem_complaints_parse hc
    exact ⟨ht, pointsAt_token ht c.message, rfl⟩
  · rw [diagnose_eq, List.map_map, List.forall₂_map_right_iff, List.forall₂_same]
    intro c hc
    exact underlined_token (mem_complaints_parse hc).1 c.message

open Engine in
/-- A letter out of the alphabet stands where a name should, and the source ends with an open list,
behind a comment that ends with a broken character and blanks. -/
theorem Engine.diagnostics_point_comment :
    let source : Bytes := utf8 "fun é f( // " ++ [255, 32, 10]
    let style := Theme.default.style .error
    ∃ found, standard.eval none (standard.diagnostics source) = .ok found ∧
      List.Forall₂ (fun c d => c.offending ∈ lex source ∧ d.PointsAt source c.offending ∧
        d.message = c.message) (parse source).complaints found ∧
      errorHighlights .default source found =
        [⟨4, 6, .error, style⟩, ⟨13, 14, .error, style⟩] := by
  intro source style
  have hstandard : standard.Reachable := create_reachable .default 0
  obtain ⟨⟨found, hfound⟩, hpoint⟩ := Engine.diagnostics_point hstandard source
  refine ⟨found, hfound, (hpoint none found hfound).1, ?_⟩
  have heq : found = diagnose source :=
    (serves_run (standard.diagnostics_serves source) hstandard.faithful none).2.1 found hfound
  rw [heq]
  decide +kernel

end Yurin
