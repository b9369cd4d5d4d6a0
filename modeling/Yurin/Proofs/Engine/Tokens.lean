import Yurin.Proofs.SemanticTokens.Encoding

/-!
# The semantic tokens of an engine

`tokens_faithful` puts the parts together: the highlights that an engine returns are proper, so the
segments of the last highlights of all ranges are what the encoded tokens stand for. Numbers of
tokens have 32 bits, which is enough for every source of less than 4 GiB.

`range_tokens` is about the tokens on some lines: they are encoded with differences of their own,
and stand for what is left on these lines of the tokens of the whole source.
-/

namespace Yurin

open SemanticToken

/-- The modifiers of a segment can be read from their bits. -/
theorem FaithfulSegments.legible {source : Bytes} {highlights : List Highlight}
    {segments : List Segment} (h : FaithfulSegments source highlights segments) :
    ∀ p ∈ segments, p.token.Legible := by
  intro p hp
  obtain ⟨i, g, -, hsegment⟩ := (h.mem_iff p).mp hp
  obtain ⟨-, -, -, -, htype⟩ := hsegment
  exact legible_of_tokenTypeOf? htype

/-- **Semantic tokens show the highlights.** Whatever calls an engine has got before, a call with
enough patience returns the encoded tokens of any source. What a call returns decodes to the
segments of the last highlights of all ranges, errors apart, in the order of the text, as far as
their numbers fit into 32 bits, which they do in a source of less than 2³² bytes. In any case the
decoded tokens are those of the segments, in some order. -/
theorem Engine.tokens_faithful {κ : Type} [DecidableEq κ] {e : Engine κ} (he : e.Reachable)
    (source : Bytes) :
    (∃ data, e.eval none (e.tokens source none) = .ok data) ∧
      ∀ patience data, e.eval patience (e.tokens source none) = .ok data →
        ∀ patience' spans diagnostics,
          e.eval patience' (e.highlight source) = .ok (spans, diagnostics) →
            ∃ segments, FaithfulSegments source spans segments ∧
              (decode data).Perm (segments.map Segment.token) ∧
              (List.Forall₂ Shows (decode data) segments ↔ ∀ p ∈ segments, p.Fits) ∧
              (source.length < UInt32.size → ∀ p ∈ segments, p.Fits) := by
  have hserves := e.tokens_serves source none
  refine ⟨(serves_run hserves he.faithful none).2.2, ?_⟩
  intro patience data hdata patience' spans diagnostics hspans
  obtain ⟨a, ha, rfl⟩ := (serves_run hserves he.faithful patience).2.1 _ hdata
  obtain ⟨b, hb, hfound⟩ :=
    (serves_run (e.highlight_serves source) he.faithful patience').2.1 _ hspans
  obtain ⟨rfl, rfl⟩ := Prod.mk.inj hfound
  obtain rfl := Except.ok.inj (ha.symm.trans hb)
  have hproper : ProperHighlights source (a.highlights e.theme) := highlights_proper ha
  have hfaithful := hproper.segments_faithful
  refine ⟨_, hfaithful, ?_, ?_, ?_⟩
  · rw [Option.elim_none, id_eq, ofHighlights_eq,
      decode_encode (List.forall_mem_map.mpr hfaithful.legible)]
    exact List.mergeSort_perm _ _
  · rw [Option.elim_none, id_eq, ofHighlights_eq]
    exact forall₂_shows_iff hfaithful.ordered hfaithful.legible
  · intro hsize p hp
    obtain ⟨i, h, -, hsegment⟩ := (hfaithful.mem_iff p).mp hp
    exact hsegment.fits hsize

/-- A comment on two lines, a declaration behind it, and a byte that is no character. -/
theorem Engine.tokens_faithful_comment :
    let source : Bytes := utf8 "/*\n*/data A" ++ [200]
    let data : List UInt32 := [0, 0, 2, 3, 0, 1, 0, 2, 3, 0, 0, 2, 4, 0, 0, 0, 5, 1, 5, 0]
    standard.eval none (standard.tokens source none) = .ok data ∧
      ∃ spans diagnostics,
        standard.eval none (standard.highlight source) = .ok (spans, diagnostics) ∧
          ∃ segments, FaithfulSegments source spans segments ∧
            List.Forall₂ Shows (decode data) segments := by
  intro source data
  have hstandard : standard.Reachable := create_reachable .default 0
  have hserves := standard.tokens_serves source none
  have hdata : standard.eval none (standard.tokens source none) = .ok data := by
    obtain ⟨found, hfound⟩ := (serves_run hserves hstandard.faithful none).2.2
    obtain ⟨a, ha, rfl⟩ := (serves_run hserves hstandard.faithful none).2.1 _ hfound
    have hspans : (Analysis.of? source).map
        (fun a => ((a.highlights standard.theme).mapIdx span?).filterMap id) =
        .ok [⟨0, 5, 0, .comment, []⟩, ⟨5, 9, 1, .keyword, []⟩, ⟨10, 11, 2, .class_, []⟩] := by
      decide +kernel
    rw [ha, Except.map] at hspans
    -- the spans and the tokens are sorted already
    rw [hfound, ofHighlights, keptSpans, spans, Except.ok.inj hspans,
      List.mergeSort_of_pairwise (by decide), Option.elim_none, id_eq, encode,
      List.mergeSort_of_pairwise (by decide +kernel)]
    decide +kernel
  obtain ⟨⟨spans, diagnostics⟩, hspans⟩ :=
    (serves_run (standard.highlight_serves source) hstandard.faithful none).2.2
  obtain ⟨segments, hfaithful, -, hshows, hfits⟩ :=
    (Engine.tokens_faithful hstandard source).2 none data hdata none spans diagnostics hspans
  exact ⟨hdata, spans, diagnostics, hspans, segments, hfaithful, hshows.mpr (hfits (by decide))⟩

/-! ## Ranges of lines -/

/-- The tokens of some lines, as they are read back. -/
theorem decode_encode_onLines (first last : Int) (tokens : List SemanticToken) :
    decode (encode (onLines first last tokens)) =
      (decode (encode tokens)).filter
        fun t => first ≤ t.line.toNat ∧ (t.line.toNat : Int) ≤ last := by
  have hsplit (t : SemanticToken) :
      decide (first ≤ t.line.toNat ∧ (t.line.toNat : Int) ≤ last) =
        (first ≤ t.line.toNat && (t.line.toNat : Int) ≤ last) := Bool.decide_and ..
  simp only [hsplit]
  exact decode_encode_filter _ (fun _ => rfl) tokens

/-- **The tokens of a range are a slice of all tokens.** Whatever highlights a source has, and
whichever lines are asked for, also none or lines that do not exist: the numbers of the tokens on
these lines decode to those of all decoded tokens that begin on them, in the same order. So what a
patient caller gets from an engine for a range decodes to this part of what it gets for the
source. -/
theorem Engine.range_tokens {κ : Type} [DecidableEq κ] {e : Engine κ} (he : e.Reachable)
    (source : Bytes) (first last : Int) :
    (∀ highlights,
      decode (encode (onLines first last (ofHighlights source highlights))) =
        (decode (encode (ofHighlights source highlights))).filter
          fun t => first ≤ t.line.toNat ∧ (t.line.toNat : Int) ≤ last) ∧
      (∃ data, e.eval none (e.tokens source (some (first, last))) = .ok data) ∧
        ∀ patience data, e.eval patience (e.tokens source (some (first, last))) = .ok data →
          ∀ patience' all, e.eval patience' (e.tokens source none) = .ok all →
            decode data = (decode all).filter
              fun t => first ≤ t.line.toNat ∧ (t.line.toNat : Int) ≤ last := by
  have hserves := e.tokens_serves source (some (first, last))
  refine ⟨fun highlights => decode_encode_onLines first last _,
    (serves_run hserves he.faithful none).2.2, ?_⟩
  intro patience data hdata patience' all hall
  obtain ⟨a, ha, rfl⟩ := (serves_run hserves he.faithful patience).2.1 _ hdata
  obtain ⟨b, hb, rfl⟩ :=
    (serves_run (e.tokens_serves source none) he.faithful patience').2.1 _ hall
  obtain rfl := Except.ok.inj (ha.symm.trans hb)
  exact decode_encode_onLines first last _

/-- A comment on two lines and a declaration behind it, of which the second line and those after it
are asked for. -/
theorem Engine.range_tokens_comment :
    let source : Bytes := utf8 "/*\n*/data A"
    let all : List UInt32 := [0, 0, 2, 3, 0, 1, 0, 2, 3, 0, 0, 2, 4, 0, 0, 0, 5, 1, 5, 0]
    let data : List UInt32 := [1, 0, 2, 3, 0, 0, 2, 4, 0, 0, 0, 5, 1, 5, 0]
    standard.eval none (standard.tokens source none) = .ok all ∧
      standard.eval none (standard.tokens source (some (1, 9))) = .ok data ∧
        decode data = (decode all).filter fun t => 1 ≤ t.line.toNat ∧ (t.line.toNat : Int) ≤ 9 := by
  intro source all data
  have hstandard : standard.Reachable := create_reachable .default 0
  have htokens {a : Analysis} (ha : Analysis.of? source = .ok a) :
      ofHighlights source (a.highlights standard.theme) =
        [⟨0, 0, 2, 3, []⟩, ⟨1, 0, 2, 3, []⟩, ⟨1, 2, 4, 0, []⟩, ⟨1, 7, 1, 5, []⟩] := by
    have hspans : (Analysis.of? source).map
        (fun a => ((a.highlights standard.theme).mapIdx span?).filterMap id) =
        .ok [⟨0, 5, 0, .comment, []⟩, ⟨5, 9, 1, .keyword, []⟩, ⟨10, 11, 2, .class_, []⟩] := by
      decide +kernel
    rw [ha, Except.map] at hspans
    -- the spans are sorted already
    rw [ofHighlights, keptSpans, spans, Except.ok.inj hspans,
      List.mergeSort_of_pairwise (by decide)]
    decide +kernel
  have hall : standard.eval none (standard.tokens source none) = .ok all := by
    have hserves := standard.tokens_serves source none
    obtain ⟨found, hfound⟩ := (serves_run hserves hstandard.faithful none).2.2
    obtain ⟨a, ha, rfl⟩ := (serves_run hserves hstandard.faithful none).2.1 _ hfound
    rw [hfound, Option.elim_none, id_eq, htokens ha, encode,
      List.mergeSort_of_pairwise (by decide +kernel)]
    decide +kernel
  have hdata : standard.eval none (standard.tokens source (some (1, 9))) = .ok data := by
    have hserves := standard.tokens_serves source (some (1, 9))
    obtain ⟨found, hfound⟩ := (serves_run hserves hstandard.faithful none).2.2
    obtain ⟨a, ha, rfl⟩ := (serves_run hserves hstandard.faithful none).2.1 _ hfound
    rw [hfound, Option.elim_some, htokens ha, encode,
      List.mergeSort_of_pairwise (by decide +kernel)]
    decide +kernel
  exact ⟨hall, hdata,
    (Engine.range_tokens hstandard source 1 9).2.2 none data hdata none all hall⟩

end Yurin
