import Yurin.Proofs.Parser.Tokens
import Yurin.Proofs.Parser.WholeDeclarations

/-!
# The names of the tree

`parse_names`: the names that a walk through the tree visits are name tokens of the source, in the
order of the source and each at most once, also where the parser recovered from errors. Without a
complaint they are all the name tokens of the source.

The tree keeps every name that is matched (`readFile_reads`), so its names are among the tokens that
the parser consumes. A name token can be missing only if it was skipped, and nothing is skipped
unless the parser complains.
-/

namespace Yurin

/-- The name that a node with a label is. -/
def Label.name? : Label → Option Token
  | .identifier _ i => some i.token
  | _ => none

/-- The names of a file, in the order in which a walk through its whole tree visits them. -/
def SourceFile.names (f : SourceFile) : List Token :=
  (f.node.walk fun _ => true).filterMap Label.name?

theorem SourceFile.names_eq (f : SourceFile) : f.names = namesOf (leaves [f.node]) := by
  have hlabel : Label.name? = fun label => label.leaf?.bind Leaf.name? := by
    funext label
    cases label <;> rfl
  rw [names, namesOf, leaves, List.filterMap_filterMap, Node.walkAll, Node.walkAll, List.append_nil,
    hlabel]

/-- The name tokens among some tokens. -/
def nameTokens (tokens : List Token) : List Token := tokens.filter (·.kind = .identifier)

theorem mem_nameTokens {tokens : List Token} {t : Token} :
    t ∈ nameTokens tokens ↔ t ∈ tokens ∧ t.kind = .identifier := by
  rw [nameTokens, List.mem_filter, decide_eq_true_iff]

theorem nameTokens_append (first second : List Token) :
    nameTokens (first ++ second) = nameTokens first ++ nameTokens second :=
  List.filter_append ..

/-- A matched token gives a name if it is one. -/
theorem Token.namesOf_toList (t : Token) : namesOf t.leaf?.toList = nameTokens [t] := by
  by_cases hk : t.kind = .identifier
  · simp [Token.leaf?, nameTokens, hk, namesOf, Leaf.name?]
  · rw [Token.namesOf_leaf? hk]
    simp [nameTokens, hk]

/-! ## Names of a stream and of a run -/

/-- The stream of a source has all of its names. -/
theorem nameTokens_lexemes (source : Bytes) :
    nameTokens ((Significant.ofTokens false none (lex source)).lexemes.map Lexeme.token) =
      nameTokens (lex source) := by
  rw [lexemes_lex, nameTokens, nameTokens, List.filter_filter]
  refine List.filter_congr fun t _ => ?_
  by_cases hk : t.kind = .identifier
  · simp [Token.isSignificant, hk, Kind.isTrivia]
  · simp [hk]

namespace Parser

theorem kind_of_mem_names {es : List Event} {t : Token} (h : t ∈ namesOf (leavesOf es)) :
    t.kind = .identifier := by
  obtain ⟨leaf, hleaf, hname⟩ := List.mem_filterMap.mp h
  obtain ⟨e, -, he⟩ := List.mem_filterMap.mp hleaf
  cases leaf with
  | modifier => cases hname
  | name u =>
    obtain rfl := Option.some.inj hname
    cases e with
    | matched l =>
      obtain ⟨rfl, hk⟩ := Token.leaf?_name he
      exact hk
    | skipped | complained => cases he

/-- The names that events give are among the name tokens that they consume, in this order. -/
theorem names_sublist (es : List Event) :
    (namesOf (leavesOf es)).Sublist (nameTokens ((consumedBy es).map Lexeme.token)) := by
  have hsub := (namesOf_leavesOf es).filter (·.kind = .identifier)
  rwa [List.filter_eq_self.mpr fun t ht => decide_eq_true (kind_of_mem_names ht)] at hsub

/-- **A run that makes no complaint** finds every name that it consumes. -/
theorem Run.names_eq {s s' : State} {es : List Event} (h : Run s es s')
    (hs : s.recovering = false) (hes : complaintsOf es = []) :
    namesOf (leavesOf es) = nameTokens ((consumedBy es).map Lexeme.token) := by
  induction h with
  | nil => rfl
  | cons step _ ih =>
    cases step with
    | complained => cases hes
    | skipped _ _ hrec => exact absurd (hs.symm.trans hrec) Bool.false_ne_true
    | matched =>
      rw [← List.singleton_append, leavesOf_append, namesOf_append, leavesOf_matched,
        Token.namesOf_toList, consumedBy_append, List.map_append, nameTokens_append]
      exact congrArg _ (ih rfl hes)

/-- **The names of a file that is read** are name tokens of the stream, in this order. Without a
complaint they are all that stand before the end of input. -/
theorem readFile_names {stream : Significant} (h : ∃ l ∈ stream.lexemes, l.token.kind = .eof) :
    (readFile stream).1.names.Sublist (nameTokens (stream.lexemes.map Lexeme.token)) ∧
      ((readFile stream).2.complaints = [] → ∃ read rest : List Lexeme, ∃ last : Lexeme,
        stream.lexemes = read ++ last :: rest ∧ last.token.kind = .eof ∧
          (readFile stream).1.names = nameTokens (read.map Lexeme.token)) := by
  obtain ⟨⟨events, run, -, hnames⟩, heof⟩ := readFile_reads h
  obtain ⟨hsplit, -⟩ := run.completes h heof
  rw [SourceFile.names_eq, hnames]
  refine ⟨(names_sublist events).trans ?_, fun hquiet => ⟨_, _, _, hsplit, heof, ?_⟩⟩
  · rw [hsplit, List.map_append, nameTokens_append]
    exact List.sublist_append_left _ _
  · exact run.names_eq (State.start_calm stream) (run.complaintsOf_eq_nil hquiet)

end Parser

/-- In the stream of a source all names come before the end of input. -/
theorem nameTokens_before_eof {source : Bytes} {read rest : List Lexeme} {last : Lexeme}
    (hsplit : (Significant.ofTokens false none (lex source)).lexemes = read ++ last :: rest)
    (heof : last.token.kind = .eof) :
    nameTokens (read.map Lexeme.token) = nameTokens (lex source) := by
  have hopen := (lex_open source).sublist (lexemes_sublist source)
  rw [hsplit, List.map_append, List.map_cons, List.pairwise_append, List.pairwise_cons] at hopen
  -- What follows `last` would come after the end of input.
  have hrest : rest = [] := List.eq_nil_iff_forall_not_mem.mpr fun l hl =>
    hopen.2.1.1 l.token (List.mem_map_of_mem hl) heof
  have hlast : nameTokens [last.token] = [] := by simp [nameTokens, heof]
  have hnames := nameTokens_lexemes source
  rw [hsplit, hrest, List.map_append, List.map_singleton, nameTokens_append, hlast,
    List.append_nil] at hnames
  exact hnames

/-- The names of the tree are among the name tokens of the source, in their order. -/
theorem parse_names_sublist (source : Bytes) :
    (parse source).file.names.Sublist (nameTokens (lex source)) := by
  have hsub := (Parser.readFile_names (exists_eof source)).1
  rwa [nameTokens_lexemes] at hsub

theorem mem_parse_names {source : Bytes} {t : Token} (h : t ∈ (parse source).file.names) :
    t ∈ lex source ∧ t.kind = .identifier :=
  mem_nameTokens.mp ((parse_names_sublist source).subset h)

/-- A name of the tree ends before the next one begins. -/
theorem parse_names_apart (source : Bytes) :
    (parse source).file.names.Pairwise fun t u => t.stop ≤ u.start :=
  (lex_pairwise source).sublist ((parse_names_sublist source).trans List.filter_sublist)

theorem parse_names_ordered (source : Bytes) :
    (parse source).file.names.Pairwise fun t u => t.start < u.start := by
  refine (parse_names_apart source).imp_of_mem fun ht _ hle => ?_
  obtain ⟨hsource, hk⟩ := mem_parse_names ht
  have hlt := start_lt_stop hsource (by simp [hk])
  omega

/-- **The names of the tree are the names of the source.** A walk through the tree visits name
tokens of the source in their order, each at most once. If the parser does not complain, it visits
all of them. -/
theorem parse_names (source : Bytes) :
    (∀ t ∈ (parse source).file.names, t ∈ lex source ∧ t.kind = .identifier) ∧
      ((parse source).file.names.Pairwise fun t u => t.start < u.start) ∧
      ((parse source).complaints = [] →
        (parse source).file.names = (lex source).filter (·.kind = .identifier)) := by
  refine ⟨fun t ht => mem_parse_names ht, parse_names_ordered source, fun hquiet => ?_⟩
  obtain ⟨read, rest, last, hsplit, heof, hnames⟩ :=
    (Parser.readFile_names (exists_eof source)).2 (List.reverse_eq_nil_iff.mp hquiet)
  exact hnames.trans (nameTokens_before_eof hsplit heof)

/-- The names of a declaration with a receiver and a named argument. -/
theorem parse_names_receiver :
    (parse (utf8 "fun a.B.c(x: D) = f(g = x)")).complaints = [] ∧
      (parse (utf8 "fun a.B.c(x: D) = f(g = x)")).file.names =
        (lex (utf8 "fun a.B.c(x: D) = f(g = x)")).filter (·.kind = .identifier) := by
  have hclean : (parse (utf8 "fun a.B.c(x: D) = f(g = x)")).complaints = [] := by decide +kernel
  exact ⟨hclean, (parse_names _).2.2 hclean⟩

end Yurin
