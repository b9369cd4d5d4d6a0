import Yurin.Proofs.Parser.Totality

/-!
# The tokens of a parsed source

What the parser keeps of a source are tokens of that source: the names and modifiers of the tree
(`mem_leaves_parse`) and the tokens that it complains about (`mem_complaints_parse`). Every
unrecognised token is complained about (`complaint_of_error`).
-/

namespace Yurin

namespace Parser

/-- A leaf of the file is a matched token. -/
theorem mem_leaves_readFile {stream : Significant} (h : ∃ l ∈ stream.lexemes, l.token.kind = .eof)
    {leaf : Leaf} (hleaf : leaf ∈ leaves [(readFile stream).1.node]) :
    ∃ l ∈ stream.lexemes, l.token.leaf? = some leaf := by
  obtain ⟨⟨events, run, hsub, -⟩, -⟩ := readFile_reads h
  obtain ⟨e, he, heleaf⟩ := List.mem_filterMap.mp (hsub.subset hleaf)
  cases e with
  | skipped => cases heleaf
  | complained => cases heleaf
  | matched l =>
    refine ⟨l, ?_, heleaf⟩
    rw [← (State.start_of_eof h).1, run.ahead_eq]
    exact List.mem_append_left _ (List.mem_filterMap.mpr ⟨_, he, rfl⟩)

/-- A complaint of the whole parse names an unrecognised token or a significant one. -/
theorem mem_complaints_readFile {stream : Significant}
    (h : ∃ l ∈ stream.lexemes, l.token.kind = .eof) {c : Complaint}
    (hc : c ∈ (readFile stream).2.complaints) :
    c.offending ∈ stream.unrecognized ∨ ∃ l ∈ stream.lexemes, l.token = c.offending := by
  obtain ⟨⟨events, run, -, -⟩, -⟩ := readFile_reads h
  rw [run.complaints_eq, List.mem_append, List.mem_reverse] at hc
  rcases hc with hc | hc
  · have hmem := run.offending_mem hc
    rw [(State.start_of_eof h).1] at hmem
    obtain ⟨l, hl, heq⟩ := List.mem_map.mp hmem
    exact .inr ⟨l, hl, heq⟩
  · rw [State.start_complaints, List.mem_reverse] at hc
    obtain ⟨t, ht, rfl⟩ := List.mem_map.mp hc
    exact .inl ht

/-- Every unrecognised token is complained about. -/
theorem unrecognized_complaints {stream : Significant}
    (h : ∃ l ∈ stream.lexemes, l.token.kind = .eof) {t : Token} (ht : t ∈ stream.unrecognized) :
    ⟨t, .unrecognized⟩ ∈ (readFile stream).2.complaints := by
  obtain ⟨⟨events, run, -, -⟩, -⟩ := readFile_reads h
  rw [run.complaints_eq, State.start_complaints, List.mem_append, List.mem_reverse,
    List.mem_reverse]
  exact .inr (List.mem_map_of_mem ht)

end Parser

section Source

variable {source : Bytes}

/-- **The names and modifiers of the tree** are tokens of the source. -/
theorem mem_leaves_parse {leaf : Leaf} (h : leaf ∈ leaves [(parse source).file.node]) :
    ∃ t ∈ lex source, t.leaf? = some leaf := by
  obtain ⟨l, hl, hleaf⟩ := Parser.mem_leaves_readFile (exists_eof source) h
  exact ⟨l.token, (mem_lex_of_lexeme hl).1, hleaf⟩

/-- **The tokens that the parser complains about** are tokens of the source, and none is trivia. -/
theorem mem_complaints_parse {c : Complaint} (h : c ∈ (parse source).complaints) :
    c.offending ∈ lex source ∧ c.offending.kind.isTrivia = false := by
  have hread := List.mem_reverse.mp h
  rcases Parser.mem_complaints_readFile (exists_eof source) hread with ht | ⟨l, hl, heq⟩
  · rw [Significant.unrecognized_eq, List.mem_filter] at ht
    obtain ⟨ht, hk⟩ := ht
    exact ⟨ht, by rw [of_decide_eq_true hk]; rfl⟩
  · obtain ⟨hmem, hsignificant⟩ := mem_lex_of_lexeme hl
    exact heq ▸ ⟨hmem, (Token.isSignificant_iff.mp hsignificant).1⟩

/-- **Every unrecognised token of a source** is complained about. -/
theorem complaint_of_error {t : Token} (ht : t ∈ lex source) (hk : t.kind = .error) :
    ⟨t, .unrecognized⟩ ∈ (parse source).complaints := by
  refine List.mem_reverse.mpr (Parser.unrecognized_complaints (exists_eof source) ?_)
  rw [Significant.unrecognized_eq, List.mem_filter]
  exact ⟨ht, decide_eq_true hk⟩

end Source

end Yurin
