import Mathlib.Data.List.Chain
import Yurin.Proofs.Text.Lines

/-!
# The tokens of a source cover it

The lexer counts lines and columns while it goes through a source, across comments with line breaks,
unclosed literals and bytes that are no characters. The line index knows nothing of tokens and finds
lines by where they begin. `lex_covers`: no byte of the source is lost between the tokens, and at
each of them, the end of input included, both countings agree.
-/

namespace Yurin

/-- The token is the part of the source that its span says. The line index finds its line and column
from its offset, and its offset from its line and column. -/
structure Token.Placed (source : Bytes) (t : Token) : Prop where
  start_nonneg : 0 ≤ t.start
  start_le : t.start ≤ t.stop
  stop_le : t.stop ≤ source.length
  slice_eq : source.slice t.start.toNat t.stop.toNat = t.text
  line_eq : ((LineIndex.ofText source).lineColumn t.start).1 = t.line
  column_eq : ((LineIndex.ofText source).lineColumn t.start).2 = t.column
  offset_eq : (LineIndex.ofText source).offset t.line t.column = t.start

/-- **Both countings agree** where a token begins. -/
theorem Token.Within.placed {t : Token} {source before behind : Bytes}
    (h : t.Within source before behind) : t.Placed source := by
  have hlen := congrArg List.length h.split
  simp only [List.length_append] at hlen
  have hplace := LineIndex.lineColumn_after before (t.text ++ behind)
  have hoffset := LineIndex.offset_after before (t.text ++ behind)
  rw [← List.append_assoc, ← h.split] at hplace hoffset
  refine ⟨?_, ?_, ?_, h.slice_text, ?_, ?_, ?_⟩
  · rw [h.start]
    omega
  · rw [h.start, h.stop]
    omega
  · rw [h.stop]
    omega
  · rw [h.start, hplace, h.line]
  · rw [h.start, hplace, h.column]
  · rw [h.line, h.column, hoffset, h.start]

namespace Lexed

variable {before text : Bytes} {tokens : List Token}

/-- The texts of the tokens make up the text. -/
theorem flatMap_text (h : Lexed before text tokens) : tokens.flatMap Token.text = text := by
  induction h with
  | stop _ htext => simp [htext]
  | token _ _ _ _ ih => rw [List.flatMap_cons, ih]

/-- The first token begins behind `before`, and every other one where the one before it ends. -/
theorem contiguous (h : Lexed before text tokens) :
    (tokens.IsChain fun t u => u.start = t.stop) ∧
      ∃ first more, tokens = first :: more ∧ first.start = before.length := by
  induction h with
  | @stop before t _ _ hw => exact ⟨.singleton t, t, [], rfl, hw.start⟩
  | @token before rest t more _ _ hw _ ih =>
    obtain ⟨hchain, u, later, rfl, hu⟩ := ih
    refine ⟨.cons_cons ?_ hchain, t, u :: later, rfl, hw.start⟩
    rw [hu, hw.stop, List.length_append, Int.natCast_add]

end Lexed

/-- The rule that made a token of a source. -/
theorem firstRule_of_mem_lex {source : Bytes} {t : Token} (ht : t ∈ lex source)
    (hne : t.text ≠ []) :
    Lexer.FirstRule (source.drop t.start.toNat) t.kind t.text.length := by
  obtain ⟨before, behind, hw, ⟨-, hempty, -⟩ | ⟨-, hhead⟩⟩ := mem_lex ht
  · contradiction
  · have hdrop : source.drop t.start.toNat = t.text ++ behind := by
      rw [hw.start, Int.toNat_natCast, hw.split, List.append_assoc, List.drop_left]
    have hrule := Lexer.head_firstRule (List.append_ne_nil_of_left_ne_nil hne behind)
    rwa [hhead, ← hdrop] at hrule

/-- **The tokens of a source cover it.** They are tokens that are not empty, each made by the first
rule that matches where it begins, and one empty token at the end of the source. Their texts make up
the source, each begins where the one before it ends, and each is placed in the source where the
line index says. -/
theorem lex_covers (source : Bytes) :
    ∃ (tokens : List Token) (last : Token), lex source = tokens ++ [last] ∧
      (∀ t ∈ tokens, t.text ≠ [] ∧ t.kind ≠ .eof ∧
        Lexer.FirstRule (source.drop t.start.toNat) t.kind t.text.length) ∧
      (last.kind = .eof ∧ last.text = [] ∧ last.start = source.length ∧
        last.stop = source.length) ∧
      tokens.flatMap Token.text = source ∧
      ((lex source).head?.map Token.start = some 0 ∧
        (lex source).IsChain fun t u => u.start = t.stop) ∧
      ∀ t ∈ lex source, t.Placed source := by
  have hlexed := lex_lexed source
  obtain ⟨tokens, last, hsplit, htokens, hkind, htext, hlast⟩ := hlexed.ends
  obtain ⟨hchain, first, more, hfirst, hstart⟩ := hlexed.contiguous
  refine ⟨tokens, last, hsplit, fun t ht => ?_, ⟨hkind, htext, hlast.start, ?_⟩, ?_, ⟨?_, hchain⟩,
    fun t ht => ?_⟩
  · obtain ⟨hne, heof⟩ := htokens t ht
    exact ⟨hne, heof, firstRule_of_mem_lex (hsplit ▸ List.mem_append_left _ ht) hne⟩
  · rw [hlast.stop, htext]
    rfl
  · have htexts := hlexed.flatMap_text
    rwa [hsplit, List.flatMap_append, List.flatMap_singleton, htext, List.append_nil] at htexts
  · rw [hfirst, List.head?_cons, Option.map_some, hstart]
    rfl
  · obtain ⟨before, behind, hw, -⟩ := mem_lex ht
    exact hw.placed

end Yurin
