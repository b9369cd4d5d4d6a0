import Yurin.Proofs.Parser.Chains
import Yurin.Proofs.Parser.Totality

/-!
# Initializers that are chains

A `Chain` on one line, behind the sign `=` and in front of what does not continue an expression, is
read to the only leveled tree that reads as the chain (`valueAfterEq?_chain`): wherever the parser
is, and however deep. A whole file of properties with such initializers is read without a complaint
(`file_properties`).
-/

namespace Yurin

/-- Integer literals with operators between them. -/
structure Chain where
  first : Token
  literal : first.kind = .intLiteral
  links : List Link

namespace Chain

/-- The tokens of a chain. -/
def tokens (c : Chain) : List Token := c.first :: Link.tokens c.links

/-- The tokens of a chain that stands on one line. A line break may come before it. -/
def lexemes (c : Chain) (afterBreak : Bool) : List Lexeme :=
  ⟨c.first, afterBreak⟩ :: Link.lexemes c.links

/-- **The one tree of a chain**: leveled, and read in order the chain; there is no other. -/
structure TreeIs (c : Chain) (e : Expr) : Prop where
  leveled : e.node.Leveled
  inOrder : e.InOrder c.tokens
  unique : ∀ e' : Expr, e'.node.Leveled → e'.InOrder c.tokens → e' = e

end Chain

/-- The tokens of a property with a chain for its initializer. -/
structure PropertyLine where
  keyword : Lexeme
  name : Lexeme
  sign : Lexeme
  afterBreak : Bool
  value : Chain
  property : keyword.token.kind = .keyword .val ∨ keyword.token.kind = .keyword .var
  named : name.token.kind = .identifier
  assigned : sign.token.kind = .mark .eq

namespace PropertyLine

/-- The tokens of a property. -/
def lexemes (l : PropertyLine) : List Lexeme :=
  l.keyword :: l.name :: l.sign :: l.value.lexemes l.afterBreak

/-- The declaration is the property, with the one tree of the chain for its initializer. -/
def Declares (l : PropertyLine) (d : Declaration) : Prop :=
  ∃ e, d = .property ⟨[], l.keyword.token, some ⟨l.name.token⟩, none⟩ none none [] (some e) [] ∧
    l.value.TreeIs e

end PropertyLine

namespace Parser

variable {α β : Type} {mode : LineMode} {s s₀ : State} {P : Productions} {next : Lexeme}
  {rest : List Lexeme}

/-- **An initializer that is a chain** is read to the one tree of the chain. -/
theorem valueAfterEq?_chain (depth : Nat) {sign : Lexeme} {c : Chain} {afterBreak : Bool}
    (hsign : sign.token.kind = .mark .eq)
    (ha : s.ahead = sign :: (c.lexemes afterBreak ++ next :: rest)) (hends : Ends mode next rest) :
    Ensures (valueAfterEq? (grammarUpTo (depth + 1))) mode s fun found s' =>
      (∃ e, found = some e ∧ c.TreeIs e) ∧ Clean s s' ∧ s'.ahead = next :: rest := by
  have hcurrent : s.current = sign := (List.cons.inj ha).1
  unfold valueAfterEq? accept
  rw [ensures_bind, ensures_bind, ensures_isAt, ensures_ite, if_pos (by simp [hcurrent, hsign])]
  refine advance_ahead_then (.refl s) ha (by simp) (by rw [hsign]; nofun) fun s₁ hc ha₁ => ?_
  rw [ensures_pure, ensures_ite, if_pos rfl, ensures_bind]
  have hfirst : (Lexeme.mk c.first afterBreak).token.kind = .intLiteral := c.literal
  have hread : Ensures (expression (grammarUpTo depth)) mode s₁ fun e s' =>
      e.InOrder c.tokens ∧ Clean s₁ s' ∧ s'.ahead = next :: rest :=
    expression_reads hfirst ha₁ hends
  have hall := (expression_always (grammarUpTo_leveled depth)).and hread
  refine hall.mono fun e s₂ h => ?_
  obtain ⟨hleveled, hread, hc', ha₂⟩ := h
  exact ⟨⟨e, rfl, hleveled, hread, fun e' hl h => h.unique hl hread hleveled⟩, hc.trans hc', ha₂⟩

/-! ## Properties -/

/-- Nothing is consumed where another token stands. -/
theorem ensures_accept_absent {k : Kind} (h : s.current.token.kind ≠ k) {Q : Bool → State → Prop} :
    Ensures (accept k) mode s Q ↔ Q false s := by
  unfold accept
  rw [ensures_bind, ensures_isAt, ensures_ite, if_neg (by simpa using h), ensures_pure]

/-- A name in front of the sign `=` has no receiver before it. -/
theorem receiverAndName_name {name : Lexeme} (ha : s.ahead = name :: next :: rest)
    (hname : name.token.kind = .identifier) (hnext : next.token.kind = .mark .eq) :
    Ensures (receiverAndName P) mode s fun found s' =>
      found = (none, some ⟨name.token⟩) ∧ Clean s s' ∧ s'.ahead = next :: rest := by
  have hcurrent : s.current = name := (List.cons.inj ha).1
  unfold receiverAndName dottedName expectIdentifier expect
  rw [ensures_bind, ensures_isAtAny, ensures_ite, if_neg (by simp [hcurrent, hname]), ensures_bind,
    ensures_bind, ensures_bind, ensures_bind, ensures_isAt, ensures_ite,
    if_pos (by simp [hcurrent, hname])]
  refine advance_ahead_then (.refl s) ha (by simp) (by rw [hname]; nofun) fun s₁ hc ha₁ => ?_
  have hcurrent₁ : s₁.current.token.kind = .mark .eq := (List.cons.inj ha₁).1 ▸ hnext
  have hstop : Ensures dottedStep mode s₁ fun found s' => found = .stop ∧ s' = s₁ := by
    unfold dottedStep
    rw [ensures_bind, ensures_isAt, ensures_bind, ensures_nextKind, ensures_ite,
      if_neg (by simp [hcurrent₁])]
    exact ⟨rfl, rfl⟩
  rw [ensures_pure, ensures_pure]
  show Ensures (dottedRest >>= _) mode s₁ _
  rw [ensures_bind]
  refine (collect_none hstop).mono ?_
  rintro _ _ ⟨rfl, rfl⟩
  rw [ensures_pure, ensures_bind, ensures_isAt, ensures_ite, if_neg (by simp [hcurrent₁]),
    ensures_bind, ensures_isAt, ensures_bind, ensures_nextKind, ensures_ite,
    if_neg (by simp [hcurrent₁])]
  exact ⟨rfl, hc, ha₁⟩

/-- What may stand behind a property of a file that consists of properties. -/
def EndsProperty (k : Kind) : Prop := k = .keyword .val ∨ k = .keyword .var ∨ k = .eof

theorem EndsProperty.ends (h : EndsProperty next.token.kind) :
    Ends mode next rest := by
  constructor
  · intro hextend
    rcases h with h | h | h <;> rw [h] at hextend <;> cases hextend
  · rintro (hdot | hdot) <;> rcases h with h | h | h <;> rw [h] at hdot <;> cases hdot

/-- A property ends without accessors. -/
theorem EndsProperty.no_accessors (h : EndsProperty s.current.token.kind)
    {Q : List Accessor → State → Prop} (hQ : Q [] s) :
    Ensures (collect (accessorStep P)) mode s Q := by
  have hstop : Ensures (accessorStep P) mode s fun found s' => found = .stop ∧ s' = s := by
    unfold accessorStep
    rw [ensures_bind, ensures_isAtAny, ensures_ite, if_neg]
    · exact ⟨rfl, rfl⟩
    · rcases h with h | h | h <;> simp [h]
  refine (collect_none hstop).mono ?_
  rintro _ _ ⟨rfl, rfl⟩
  exact hQ

/-- **A property with a chain for its initializer** is read as such. -/
theorem propertyDeclaration_reads (depth : Nat) {l : PropertyLine}
    (ha : s.ahead = l.lexemes ++ next :: rest) (hnext : EndsProperty next.token.kind) :
    Ensures (propertyDeclaration (grammarUpTo (depth + 1)) []) mode s fun d s' =>
      l.Declares d ∧ Clean s s' ∧ s'.ahead = next :: rest := by
  have hopen : l.keyword.token.kind ≠ .eof := by
    rcases l.property with h | h <;> rw [h] <;> nofun
  unfold propertyDeclaration
  refine advance_ahead_then (.refl s) ha (by simp) hopen fun s₁ hc₁ ha₁ => ?_
  have hname : s₁.current.token.kind = .identifier := (List.cons.inj ha₁).1 ▸ l.named
  unfold typeParameters?
  rw [ensures_bind, ensures_bind, ensures_isAt, ensures_ite, if_neg (by simp [hname]),
    ensures_pure, ensures_bind]
  refine (receiverAndName_name ha₁ l.named l.assigned).mono ?_
  rintro _ s₂ ⟨rfl, hc₂, ha₂⟩
  have hsign : s₂.current.token.kind = .mark .eq := (List.cons.inj ha₂).1 ▸ l.assigned
  unfold typeAfter? typesAfter?
  dsimp only
  rw [ensures_bind, ensures_bind, ensures_accept_absent (by rw [hsign]; nofun), ensures_ite,
    if_neg Bool.false_ne_true, ensures_pure, ensures_bind, ensures_bind,
    ensures_accept_absent (by rw [hsign]; nofun), ensures_ite, if_neg Bool.false_ne_true,
    ensures_pure, ensures_bind]
  refine (valueAfterEq?_chain depth l.assigned ha₂ hnext.ends).mono ?_
  rintro _ s₃ ⟨⟨e, rfl, he⟩, hc₃, ha₃⟩
  have hend : EndsProperty s₃.current.token.kind := (List.cons.inj ha₃).1 ▸ hnext
  rw [ensures_bind]
  refine hend.no_accessors ?_
  rw [ensures_pure]
  exact ⟨⟨e, rfl, he⟩, hc₁.trans (hc₂.trans hc₃), ha₃⟩

/-- A declaration that begins with `val` or `var`, and a name, is a property. -/
theorem declaration_reads (depth : Nat) {l : PropertyLine}
    (ha : s.ahead = l.lexemes ++ next :: rest) (hnext : EndsProperty next.token.kind) :
    Ensures (declaration (grammarUpTo (depth + 1))) mode s fun found s' =>
      (∃ d, found = some d ∧ l.Declares d) ∧ Clean s s' ∧ s'.ahead = next :: rest := by
  have hcurrent : s.current = l.keyword := (List.cons.inj ha).1
  have hsecond : (s.rest.headD s.current).token.kind = .identifier := by
    rw [(List.cons.inj ha).2]
    exact l.named
  have hproperty : Ensures (do
      return some (← propertyDeclaration (grammarUpTo (depth + 1)) [])) mode s fun found s' =>
        (∃ d, found = some d ∧ l.Declares d) ∧ Clean s s' ∧ s'.ahead = next :: rest := by
    rw [ensures_bind]
    refine (propertyDeclaration_reads depth ha hnext).mono fun d s' h => ?_
    exact ⟨⟨d, rfl, h.1⟩, h.2⟩
  have hstop : Ensures modifierStep mode s fun found s' => found = .stop ∧ s' = s := by
    unfold modifierStep
    rw [ensures_bind, ensures_kind, ensures_ite, if_pos]
    · exact ⟨rfl, rfl⟩
    · rcases l.property with h | h <;> rw [hcurrent, h] <;> rfl
  unfold declaration
  rw [ensures_bind, ensures_current, ensures_bind]
  refine (collect_none hstop).mono ?_
  rintro _ _ ⟨rfl, rfl⟩
  rw [ensures_bind, ensures_kind, hcurrent]
  rcases l.property with h | h
  · rw [h]
    dsimp only
    rw [ensures_bind, ensures_nextKind, hsecond, ensures_ite, if_neg (by nofun)]
    exact hproperty
  · rw [h]
    exact hproperty

/-! ## Files of properties -/

/-- What stands behind the properties that are left, or behind all of them. -/
theorem exists_next {last : Lexeme} (hlast : last.token.kind = .eof) (lines : List PropertyLine) :
    ∃ next rest, lines.flatMap PropertyLine.lexemes ++ [last] = next :: rest ∧
      EndsProperty next.token.kind := by
  cases lines with
  | nil => exact ⟨last, [], rfl, .inr (.inr hlast)⟩
  | cons l lines => exact ⟨l.keyword, _, rfl, l.property.imp_right .inl⟩

theorem declarations_collected (depth : Nat) {lines : List PropertyLine} {last : Lexeme}
    (ha : s.ahead = lines.flatMap PropertyLine.lexemes ++ [last])
    (hlast : last.token.kind = .eof) :
    Ensures (collect (declarationStep (grammarUpTo (depth + 2)))) mode s fun ds s' =>
      List.Forall₂ PropertyLine.Declares lines ds ∧ Clean s s' := by
  unfold collect
  rw [ensures_bind, ensures_get]
  have hfuel : s.rest.length < s.rest.length + 1 := Nat.lt_succ_self _
  generalize s.rest.length + 1 = fuel at hfuel
  induction lines generalizing s fuel with
  | nil =>
    obtain _ | fuel := fuel
    · cases hfuel
    have hcurrent : s.current = last := (List.cons.inj ha).1
    unfold collectUpTo declarationStep
    rw [ensures_bind, ensures_bind, ensures_isAt, ensures_ite, if_pos (by simp [hcurrent, hlast])]
    exact ⟨.nil, .refl s⟩
  | cons l lines ih =>
    obtain _ | fuel := fuel
    · cases hfuel
    rw [List.flatMap_cons, List.append_assoc] at ha
    have hcurrent : s.current = l.keyword := (List.cons.inj ha).1
    have hopen : ¬ (s.current.token.kind == .eof) = true := by
      rcases l.property with h | h <;> rw [hcurrent, h] <;> decide
    obtain ⟨next, rest, hnext, hends⟩ := exists_next hlast lines
    rw [hnext] at ha
    unfold collectUpTo declarationStep progress
    rw [ensures_bind, ensures_bind, ensures_isAt, ensures_ite, if_neg hopen, ensures_bind,
      ensures_consumed, ensures_bind]
    refine (declaration_reads depth ha hends).mono ?_
    rintro _ s₁ ⟨⟨d, rfl, hd⟩, hc, ha₁⟩
    have hshort : s₁.rest.length < s.rest.length := by
      have h := congrArg List.length ha
      have h₁ := congrArg List.length ha₁
      simp only [State.ahead, PropertyLine.lexemes, List.cons_append, List.length_cons,
        List.length_append] at h h₁
      omega
    have htotal := hc.total
    have hmoved : ¬ (s₁.consumed == s.consumed) = true := by
      rw [beq_iff_eq]
      omega
    rw [ensures_bind, ensures_consumed, ensures_ite, if_neg hmoved, ensures_pure, ensures_ite,
      if_pos rfl, ensures_bind]
    refine (ih (hnext ▸ ha₁) fuel (by omega)).mono fun ds s₂ h => ?_
    exact ⟨.cons hd h.1, hc.trans h.2⟩

/-- **A file of properties** with chains for their initializers. -/
theorem file_properties (depth : Nat) {lines : List PropertyLine} {last : Lexeme}
    (ha : s.ahead = lines.flatMap PropertyLine.lexemes ++ [last])
    (hlast : last.token.kind = .eof) :
    Ensures (file (grammarUpTo (depth + 2))) mode s fun f s' =>
      (∃ ds, f = ⟨none, [], ds⟩ ∧ List.Forall₂ PropertyLine.Declares lines ds) ∧ Clean s s' := by
  obtain ⟨next, rest, hnext, hends⟩ := exists_next hlast lines
  have hcurrent : s.current = next := (List.cons.inj (ha.trans hnext)).1
  have hplain (w : Keyword) (hw : w ≠ .val ∧ w ≠ .var) :
      ¬ (s.current.token.kind == .keyword w) = true := by
    rw [beq_iff_eq, hcurrent]
    intro h
    rcases hends with h' | h' | h' <;> rw [h] at h'
    · exact hw.1 (Kind.keyword.inj h')
    · exact hw.2 (Kind.keyword.inj h')
    · cases h'
  have hstop : Ensures importStep mode s fun found s' => found = .stop ∧ s' = s := by
    unfold importStep
    rw [ensures_bind, ensures_isAt, ensures_ite, if_neg (hplain .import_ (by decide))]
    exact ⟨rfl, rfl⟩
  unfold file packageHeader?
  rw [ensures_bind, ensures_bind, ensures_isAt, ensures_ite, if_neg (hplain .package (by decide)),
    ensures_pure, ensures_bind]
  refine (collect_none hstop).mono ?_
  rintro _ _ ⟨rfl, rfl⟩
  rw [ensures_bind]
  refine (declarations_collected depth ha hlast).mono fun ds s' h => ?_
  exact ⟨⟨ds, rfl, h.1⟩, h.2⟩

end Parser

open Yurin.Parser

/-- **Precedence and associativity.** In the tree of every token list, at every node, the operands
have the levels that the operator of the node asks for. And an initializer that is a chain on one
line is read, wherever the parser stands and whatever follows that does not continue it, without a
complaint to the one such tree of the chain. So a file of properties with chains for their
initializers has no complaints, and their one trees for the initializers. -/
theorem parseTokens_precedence :
    (∀ tokens : List Token, (parseTokens tokens).file.node.Leveled) ∧
    (∀ (depth : Nat) (mode : LineMode) (s : Parser.State) (sign : Lexeme) (c : Chain)
        (afterBreak : Bool) (next : Lexeme) (rest : List Lexeme),
      sign.token.kind = .mark .eq → s.ahead = sign :: (c.lexemes afterBreak ++ next :: rest) →
        Ends mode next rest →
          Ensures (valueAfterEq? (grammarUpTo (depth + 1))) mode s fun found s' =>
            (∃ e, found = some e ∧ c.TreeIs e) ∧ s'.complaints = s.complaints ∧
              s'.ahead = next :: rest) ∧
    ∀ (tokens : List Token) (lines : List PropertyLine) (last : Lexeme),
      Significant.ofTokens false none tokens =
          ⟨lines.flatMap PropertyLine.lexemes ++ [last], []⟩ →
        last.token.kind = .eof →
          (parseTokens tokens).complaints = [] ∧
            ∃ ds, (parseTokens tokens).file = ⟨none, [], ds⟩ ∧
              List.Forall₂ PropertyLine.Declares lines ds := by
  refine ⟨parseTokens_leveled, ?_, ?_⟩
  · intro depth mode s sign c afterBreak next rest hsign ha hends
    refine (valueAfterEq?_chain depth hsign ha hends).mono fun found s' h => ?_
    exact ⟨h.1, h.2.1.complaints_eq, h.2.2⟩
  · intro tokens lines last hstream hlast
    have hne : (Significant.ofTokens false none tokens).lexemes ≠ [] := by
      rw [hstream]
      exact List.append_ne_nil_of_right_ne_nil _ (List.cons_ne_nil _ _)
    obtain ⟨ha, -, -⟩ := State.start_ahead hne
    have hsize : (Significant.ofTokens false none tokens).lexemes.length + 1 =
        (lines.flatMap PropertyLine.lexemes).length + 2 := by
      rw [hstream, List.length_append]
      rfl
    have hfile : Ensures (file (grammarUpTo
        ((Significant.ofTokens false none tokens).lexemes.length + 1))) .significant
        (.start (.ofTokens false none tokens)) fun f s' =>
          (∃ ds, f = ⟨none, [], ds⟩ ∧ List.Forall₂ PropertyLine.Declares lines ds) ∧
            s'.complaints = [] := by
      rw [hsize]
      refine (file_properties _ (ha.trans (by rw [hstream])) hlast).mono fun f s' h => ⟨h.1, ?_⟩
      rw [h.2.complaints_eq, State.start_complaints, hstream]
      rfl
    exact ⟨List.reverse_eq_nil_iff.mpr hfile.2, hfile.1⟩

/-- A chain of three operators, one of them the function of an infix call: in a file, and behind the
sign `=` of a parser that has made a complaint and recovers. -/
theorem parseTokens_precedence_mixed :
    let tokens := lex (utf8 "val x = 1 - 2 to 3 * 4")
    ∃ c : Chain, c.tokens.map Token.start = [8, 10, 12, 14, 17, 19, 21] ∧
      ((parseTokens tokens).complaints = [] ∧ ∃ (keyword : Token) (name : Identifier) (e : Expr),
        (parseTokens tokens).file.declarations =
            [.property ⟨[], keyword, some name, none⟩ none none [] (some e) []] ∧ c.TreeIs e) ∧
      let s : Parser.State :=
        { current := ⟨tokens.getD 4 default, false⟩
          rest := c.lexemes true ++ [⟨tokens.getD 19 default, false⟩]
          consumed := 2, recovering := true, complaints := [⟨default, .noExpression⟩]
          overrun := false }
      Ensures (valueAfterEq? (grammarUpTo 1)) .significant s fun found s' =>
        (∃ e, found = some e ∧ c.TreeIs e) ∧ s'.complaints = s.complaints ∧
          s'.ahead = [⟨tokens.getD 19 default, false⟩] := by
  intro tokens
  have hliteral : ∀ i ∈ [6, 10, 14, 18], (tokens.getD i default).kind = .intLiteral := by
    decide +kernel
  have hjoins : ∀ i ∈ [8, 12, 16], 0 < (tokens.getD i default).kind.level := by decide +kernel
  have hhead : (tokens.getD 0 default).kind = .keyword .val ∧
      (tokens.getD 2 default).kind = .identifier ∧ (tokens.getD 4 default).kind = .mark .eq ∧
      (tokens.getD 19 default).kind = .eof := by decide +kernel
  have hlexemes : (Significant.ofTokens false none tokens).lexemes =
      [0, 2, 4, 6, 8, 10, 12, 14, 16, 18, 19].map fun i => ⟨tokens.getD i default, false⟩ := by
    decide +kernel
  have hrest : (Significant.ofTokens false none tokens).unrecognized = [] := by decide +kernel
  have hstarts : [6, 8, 10, 12, 14, 16, 18].map (fun i => (tokens.getD i default).start) =
      [8, 10, 12, 14, 17, 19, 21] := by decide +kernel
  -- from here on, all that is known of the tokens is in these facts
  clear_value tokens
  let c : Chain := ⟨_, hliteral 6 (by decide),
    [⟨_, _, hjoins 8 (by decide), hliteral 10 (by decide)⟩,
     ⟨_, _, hjoins 12 (by decide), hliteral 14 (by decide)⟩,
     ⟨_, _, hjoins 16 (by decide), hliteral 18 (by decide)⟩]⟩
  let line : PropertyLine :=
    { keyword := ⟨_, false⟩, name := ⟨_, false⟩, sign := ⟨_, false⟩, afterBreak := false
      value := c, property := .inl hhead.1, named := hhead.2.1, assigned := hhead.2.2.1 }
  have hstream : Significant.ofTokens false none tokens =
      ⟨[line].flatMap PropertyLine.lexemes ++ [⟨tokens.getD 19 default, false⟩], []⟩ :=
    calc Significant.ofTokens false none tokens
      _ = ⟨(Significant.ofTokens false none tokens).lexemes,
            (Significant.ofTokens false none tokens).unrecognized⟩ := rfl
      _ = _ := by rw [hlexemes, hrest]; rfl
  have hends : Ends .significant ⟨tokens.getD 19 default, false⟩ [] :=
    EndsProperty.ends (.inr (.inr hhead.2.2.2))
  obtain ⟨hclean, ds, hfile, hds⟩ :=
    parseTokens_precedence.2.2 tokens [line] _ hstream hhead.2.2.2
  refine ⟨c, hstarts, ⟨hclean, ?_⟩, ?_⟩
  · cases hds with
    | cons hd hnil =>
      cases hnil
      obtain ⟨e, rfl, he⟩ := hd
      exact ⟨_, _, e, by rw [hfile], he⟩
  · exact parseTokens_precedence.2.1 0 .significant _ _ c true _ [] line.assigned rfl hends

end Yurin
