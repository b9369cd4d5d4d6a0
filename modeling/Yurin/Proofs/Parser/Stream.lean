import Yurin.Parser
import Yurin.Proofs.Token.Lexing

/-!
# The stream of a token list

Splitting a token list passes over trivia, sets the unrecognised tokens aside and keeps the others.
`Significant.ofTokens_cons` says this of the first token of a list. By induction the unrecognised
tokens are the error tokens of the list (`unrecognized_eq`), and the lexemes of a list that ends
with the end of input are its significant tokens (`lexemes_eq`), in their order.

A list without an end of input gets one, so there is always one to stop at (`ofTokens_closed`).
-/

namespace Yurin

/-- The tokens of a source end with the end of input. -/
theorem getLast?_lex (source : Bytes) : (lex source).getLast?.map Token.kind = some .eof := by
  obtain ⟨tokens, last, hsplit, -, hkind, -, -⟩ := (lex_lexed source).ends
  rw [hsplit, List.getLast?_concat, Option.map_some, hkind]

/-- Whether the parser reads a token: it is neither trivia nor unrecognised. -/
def Token.isSignificant (t : Token) : Bool := !t.kind.isTrivia && t.kind != .error

theorem Token.isSignificant_iff {t : Token} :
    t.isSignificant = true ↔ t.kind.isTrivia = false ∧ t.kind ≠ .error := by
  simp [isSignificant]

namespace Significant

variable {t : Token} {tokens : List Token} {sawBreak : Bool} {last : Option Token}

/-- A significant token is kept, and no line break stands behind it any more. -/
theorem ofTokens_keep (rest : List Token) (sawBreak : Bool) (last : Option Token)
    (h : t.isSignificant = true) :
    ofTokens sawBreak last (t :: rest) =
      ⟨⟨t, sawBreak⟩ :: (ofTokens false (some t) rest).lexemes,
        (ofTokens false (some t) rest).unrecognized⟩ := by
  obtain ⟨htrivia, herror⟩ := Token.isSignificant_iff.mp h
  rw [ofTokens]
  split <;> simp_all [Kind.isTrivia]

/-- **What becomes of the first token of a list**: it is passed over, set aside or kept. -/
theorem ofTokens_cons (t : Token) (rest : List Token) (sawBreak : Bool) (last : Option Token) :
    (t.kind.isTrivia = true ∧ ∃ b, ofTokens sawBreak last (t :: rest) = ofTokens b last rest) ∨
    (t.kind = .error ∧ ofTokens sawBreak last (t :: rest) =
      ⟨(ofTokens sawBreak last rest).lexemes, t :: (ofTokens sawBreak last rest).unrecognized⟩) ∨
    (t.isSignificant = true ∧ ofTokens sawBreak last (t :: rest) =
      ⟨⟨t, sawBreak⟩ :: (ofTokens false (some t) rest).lexemes,
        (ofTokens false (some t) rest).unrecognized⟩) := by
  by_cases hsignificant : t.isSignificant = true
  · exact .inr (.inr ⟨hsignificant, ofTokens_keep rest sawBreak last hsignificant⟩)
  by_cases herror : t.kind = .error
  · refine .inr (.inl ⟨herror, ?_⟩)
    rw [ofTokens, herror]
  · have htrivia : t.kind.isTrivia = true := by
      simpa [Token.isSignificant, herror] using hsignificant
    refine .inl ⟨htrivia, ?_⟩
    rw [ofTokens]
    split
    · exact ⟨_, rfl⟩
    · exact ⟨_, rfl⟩
    · exact ⟨_, rfl⟩
    · exact ⟨_, rfl⟩
    · contradiction
    · simp_all [Kind.isTrivia]

/-- The significant tokens hold an end of input, unless it was the last token before them. -/
theorem ofTokens_closed (tokens : List Token) (sawBreak : Bool) (last : Option Token)
    (h : ∀ t ∈ last, t.kind ≠ .eof) :
    ∃ l ∈ (ofTokens sawBreak last tokens).lexemes, l.token.kind = .eof := by
  induction tokens generalizing sawBreak last with
  | nil =>
    cases last with
    | none => exact ⟨_, List.mem_cons_self, rfl⟩
    | some t =>
      simp only [ofTokens, if_neg (h t rfl)]
      exact ⟨_, List.mem_cons_self, rfl⟩
  | cons t rest ih =>
    obtain ⟨-, b, heq⟩ | ⟨-, heq⟩ | ⟨-, heq⟩ := ofTokens_cons t rest sawBreak last
    · rw [heq]
      exact ih b last h
    · rw [heq]
      exact ih sawBreak last h
    · rw [heq]
      by_cases hk : t.kind = .eof
      · exact ⟨_, List.mem_cons_self, hk⟩
      · obtain ⟨l, hl, hl'⟩ := ih false (some t) (by simpa using hk)
        exact ⟨l, List.mem_cons_of_mem _ hl, hl'⟩

/-- The unrecognised tokens are the error tokens of the list, in order. -/
theorem unrecognized_eq (tokens : List Token) (sawBreak : Bool) (last : Option Token) :
    (ofTokens sawBreak last tokens).unrecognized = tokens.filter (·.kind = .error) := by
  induction tokens generalizing sawBreak last with
  | nil =>
    unfold ofTokens
    split
    · rfl
    · split <;> rfl
  | cons t rest ih =>
    obtain ⟨htrivia, b, heq⟩ | ⟨herror, heq⟩ | ⟨hkept, heq⟩ := ofTokens_cons t rest sawBreak last
    · have herror : t.kind ≠ .error := fun hk => by simp [hk, Kind.isTrivia] at htrivia
      rw [heq, ih, List.filter_cons_of_neg (by simpa using herror)]
    · rw [heq, ih, List.filter_cons_of_pos (by simpa using herror)]
    · have herror := (Token.isSignificant_iff.mp hkept).2
      rw [heq, ih, List.filter_cons_of_neg (by simpa using herror)]

/-- The end of input comes after a token of another kind. -/
theorem getLast?_of_cons {rest earlier : List Token} (later : List Token) (hk : t.kind ≠ .eof)
    (h : (earlier ++ t :: rest).getLast?.map Token.kind = some .eof) :
    (later ++ rest).getLast?.map Token.kind = some .eof := by
  cases rest with
  | nil => simp [hk] at h
  | cons u rest => simpa using h

/-- **Of a list that ends with the end of input** the significant tokens are kept, in order. -/
theorem lexemes_eq (tokens : List Token) (sawBreak : Bool) (last : Option Token)
    (h : (last.toList ++ tokens).getLast?.map Token.kind = some .eof) :
    (ofTokens sawBreak last tokens).lexemes.map Lexeme.token =
      tokens.filter Token.isSignificant := by
  induction tokens generalizing sawBreak last with
  | nil =>
    cases last with
    | none => cases h
    | some t =>
      have hk : t.kind = .eof := by simpa using h
      rw [ofTokens, if_pos hk]
      rfl
  | cons t rest ih =>
    have hdrop {b : Bool} (hk : t.isSignificant = false) :
        (ofTokens b last rest).lexemes.map Lexeme.token =
          (t :: rest).filter Token.isSignificant := by
      have hopen : t.kind ≠ .eof := fun heof => by
        simp [Token.isSignificant, heof, Kind.isTrivia] at hk
      rw [List.filter_cons_of_neg (by simp [hk])]
      exact ih b last (getLast?_of_cons last.toList hopen h)
    obtain ⟨htrivia, b, heq⟩ | ⟨herror, heq⟩ | ⟨hkept, heq⟩ := ofTokens_cons t rest sawBreak last
    · rw [heq]
      exact hdrop (by simp [Token.isSignificant, htrivia])
    · rw [heq]
      exact hdrop (by simp [Token.isSignificant, herror])
    · rw [heq, List.filter_cons_of_pos hkept, List.map_cons, ih false (some t) (by simpa using h)]

end Significant

/-! ## The stream of a source -/

section Source

variable {source : Bytes}

/-- In the stream of a source the end of input is reached. -/
theorem exists_eof (source : Bytes) :
    ∃ l ∈ (Significant.ofTokens false none (lex source)).lexemes, l.token.kind = .eof :=
  Significant.ofTokens_closed (lex source) false none (by simp)

/-- The lexemes of a source are its significant tokens. -/
theorem lexemes_lex (source : Bytes) :
    (Significant.ofTokens false none (lex source)).lexemes.map Lexeme.token =
      (lex source).filter Token.isSignificant :=
  Significant.lexemes_eq (lex source) false none (getLast?_lex source)

theorem lexemes_sublist (source : Bytes) :
    ((Significant.ofTokens false none (lex source)).lexemes.map Lexeme.token).Sublist
      (lex source) := by
  rw [lexemes_lex]
  exact List.filter_sublist

theorem mem_lex_of_lexeme {l : Lexeme}
    (h : l ∈ (Significant.ofTokens false none (lex source)).lexemes) :
    l.token ∈ lex source ∧ l.token.isSignificant = true := by
  rw [← List.mem_filter, ← lexemes_lex]
  exact List.mem_map_of_mem h

end Source

end Yurin
