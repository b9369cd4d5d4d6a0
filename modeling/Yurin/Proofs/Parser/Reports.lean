import Yurin.Proofs.Parser.Names

/-!
# The order of complaints

The parser complains about the unrecognised characters of a source first and then about significant
tokens. It is silent after a complaint until it has matched a token, and it drops tokens only while
it is silent. Everything here follows from that, step by step of a run:

* `Run.offending_sublist`: the tokens that a run complains about lie ahead of it, in this order and
  each at most once, so no token is complained about twice.
* `Run.matched_between`: between two complaints a token is matched.
* `Run.complained_before`: before a token is skipped there has been a complaint.

`parse_orderly` says what this means for the complaints about a source.
-/

namespace Yurin

namespace Parser

variable {s s' s'' : State} {es : List Event}

/-- **The tokens that a run complains about** lie ahead at its start, in this order. While the
parser recovers, the current token is not one of them. -/
theorem Run.offending_sublist (h : Run s es s') :
    ((complaintsOf es).map Complaint.offending).Sublist
      ((if s.recovering then s.rest else s.ahead).map Lexeme.token) := by
  induction h with
  | nil => exact List.nil_sublist _
  | @cons s _ _ e es step _ ih =>
    cases step with
    | matched hk hr =>
      -- the parser does not recover any more, and stands on the next token
      have hrest : (s.rest.map Lexeme.token).Sublist
          ((if s.recovering then s.rest else s.ahead).map Lexeme.token) := by
        split
        · exact .refl _
        · exact List.sublist_cons_self _ _
      rw [hr] at hrest ⊢
      exact ih.trans hrest
    | skipped hk hr hrec =>
      rw [if_pos hrec, hr]
      rw [State.moveTo, if_pos hrec] at ih
      exact ih.trans (List.sublist_cons_self _ _)
    | complained cause hrec =>
      rw [if_neg (by simp [hrec])]
      exact ih.cons_cons _

/-- A run can be cut between any two events. -/
theorem Run.exists_between {es' : List Event} (h : Run s (es ++ es') s'') :
    ∃ s', Run s es s' ∧ Run s' es' s'' := by
  induction es generalizing s with
  | nil => exact ⟨s, .nil s, h⟩
  | cons e es ih =>
    cases h with
    | cons step run =>
      obtain ⟨s', hfirst, hsecond⟩ := ih run
      exact ⟨s', .cons step hfirst, hsecond⟩

/-- A parser that recovers does so until it matches a token. -/
theorem Run.recovering_of_unmatched (h : Run s es s') (hs : s.recovering = true)
    (hes : ∀ l, Event.matched l ∉ es) : s'.recovering = true := by
  induction h with
  | nil => exact hs
  | cons step _ ih =>
    have hrest := fun l hl => hes l (List.mem_cons_of_mem _ hl)
    cases step with
    | matched => exact absurd List.mem_cons_self (hes _)
    | skipped _ _ hrec => exact ih hrec hrest
    | complained => exact ih rfl hrest

/-- **Between two complaints a token is matched.** -/
theorem Run.matched_between {before between after : List Event} {c d : Complaint}
    (h : Run s (before ++ .complained c :: between ++ .complained d :: after) s') :
    ∃ l, Event.matched l ∈ between := by
  refine Classical.byContradiction fun hnone => ?_
  obtain ⟨s₁, hfirst, hsecond⟩ := h.exists_between
  obtain ⟨s₀, -, hfirst⟩ := hfirst.exists_between
  cases hfirst with
  | cons step hbetween =>
    cases step with
    | complained cause =>
      have hrec := hbetween.recovering_of_unmatched rfl fun l hl => hnone ⟨l, hl⟩
      -- a parser that recovers does not complain
      cases hsecond with
      | cons step _ =>
        cases step with
        | complained _ hcalm => exact absurd (hcalm.symm.trans hrec) Bool.false_ne_true

/-- **Before a token is skipped there has been a complaint**, unless the parser recovered from the
beginning. -/
theorem Run.complained_before {before after : List Event} {l : Lexeme}
    (h : Run s (before ++ .skipped l :: after) s') (hs : s.recovering = false) :
    complaintsOf before ≠ [] := by
  intro hnone
  obtain ⟨s₁, hbefore, hskip⟩ := h.exists_between
  cases hskip with
  | cons step _ =>
    cases step with
    | skipped _ _ hrec =>
      exact absurd ((hbefore.calm hs hnone).symm.trans hrec) Bool.false_ne_true

end Parser

/-! ## Complaints about a source -/

/-- The tokens of a source that the parser reads: what is neither trivia nor unrecognised. The end
of input is the last of them. -/
def significantTokens (source : Bytes) : List Token :=
  (lex source).filter fun t => !t.kind.isTrivia && t.kind != .error

/-- Significant tokens begin one behind the other. -/
theorem significantTokens_pairwise (source : Bytes) :
    (significantTokens source).Pairwise fun t u => t.start < u.start := by
  have hapart := ((lex_pairwise source).and (lex_open source)).sublist
    (@List.filter_sublist _ (fun t => !t.kind.isTrivia && t.kind != .error) (lex source))
  refine hapart.imp_of_mem fun {t u} ht _ ⟨hle, hopen⟩ => ?_
  have hlt := start_lt_stop (List.mem_filter.mp ht).1 hopen
  omega

open Yurin.Parser

/-- The complaints of a run are in order. -/
structure Orderly (source : Bytes) (events : List Parser.Event) : Prop where
  /-- The parser complains about significant tokens. -/
  significant : ∀ c ∈ complaintsOf events, c.offending ∈ significantTokens source
  /-- It complains about each at most once, in the order of the source. -/
  increasing : (complaintsOf events).Pairwise fun c d => c.offending.start < d.offending.start
  length_le : (complaintsOf events).length ≤ (significantTokens source).length
  /-- Between two complaints it matches a token. -/
  matched : ∀ before c between d after,
    events = before ++ .complained c :: between ++ .complained d :: after →
      ∃ l, Event.matched l ∈ between
  /-- Before it skips a token it has complained. -/
  complained : ∀ before l after, events = before ++ .skipped l :: after →
    complaintsOf before ≠ []

/-- **The complaints of a parse come in order.** A source is read by a run that matches the names of
the tree and no others. Whatever run leads to where the parser ends: the complaints are first one
about each unrecognised character, in the order of the source, and then those of the run, which are
orderly. -/
theorem parse_orderly (source : Bytes) :
    let stream := Significant.ofTokens false none (lex source)
    let final := (readFile stream).2
    (∃ events, Run (.start stream) events final ∧
      namesOf (leavesOf events) = (parse source).file.names) ∧
    ∀ events, Run (.start stream) events final →
      (parse source).complaints =
          ((lex source).filter (·.kind = .error)).map (⟨·, .unrecognized⟩) ++ complaintsOf events ∧
        Orderly source events := by
  intro stream final
  have hclosed : ∃ l ∈ stream.lexemes, l.token.kind = .eof := exists_eof source
  refine ⟨?_, fun events run => ?_⟩
  · obtain ⟨⟨events, run, -, hnames⟩, -⟩ := readFile_reads hclosed
    exact ⟨events, run, hnames.symm.trans (SourceFile.names_eq _).symm⟩
  · have hsub := run.offending_sublist
    rw [State.start_calm, if_neg Bool.false_ne_true,
      (State.start_of_eof hclosed).1, lexemes_lex] at hsub
    refine ⟨?_, ⟨fun c hc => hsub.subset (List.mem_map_of_mem hc), ?_, ?_, ?_, ?_⟩⟩
    · have hall := run.complaints_eq
      rw [State.start_complaints, Significant.unrecognized_eq] at hall
      rw [parse, parseTokens]
      dsimp only
      rw [hall, List.reverse_append, List.reverse_reverse, List.reverse_reverse]
    · have hincreasing : ((complaintsOf events).map Complaint.offending).Pairwise
          fun t u => t.start < u.start := (significantTokens_pairwise source).sublist hsub
      exact hincreasing.of_map Complaint.offending fun _ _ => id
    · rw [← List.length_map Complaint.offending]
      exact hsub.length_le
    · rintro before c between d after rfl
      exact run.matched_between
    · rintro before l after rfl
      exact run.complained_before (State.start_calm stream)

/-- An unrecognised character is complained about before the tokens that stand before it. Of the two
tokens that no declaration begins with only the first is complained about. -/
theorem parse_orderly_malformed :
    let source := utf8 "data A ) ) data ) val $ x = 1"
    let stream := Significant.ofTokens false none (lex source)
    (parse source).complaints.map (·.offending.start) = [22, 7, 16] ∧
      ∃ events, Run (.start stream) events (readFile stream).2 ∧
        complaintsOf events = (parse source).complaints.drop 1 ∧ Orderly source events := by
  intro source stream
  obtain ⟨⟨events, run, -⟩, hruns⟩ := parse_orderly source
  obtain ⟨hcomplaints, horderly⟩ := hruns events run
  have hone : ((lex source).filter (·.kind = .error)).length = 1 := by decide +kernel
  refine ⟨by decide +kernel, events, run, ?_, horderly⟩
  rw [hcomplaints, List.drop_left' (by rw [List.length_map, hone])]

end Yurin
