import Yurin.Parser
import Yurin.Proofs.Parser.Precedence

/-!
# Every file is leveled

Declarations and statements hold expressions, which are leveled, and have no operators of their own.
By induction on the nesting all productions find leveled phrases (`grammarUpTo_leveled`), so the
tree of every token list is leveled (`parseTokens_leveled`), whatever is wrong with the tokens.
-/

namespace Yurin

namespace Parser

variable {P : Productions}

/-! ## Parts of declarations -/

theorem valueAfterEq?_always (hP : P.Leveled) :
    Always (valueAfterEq? P) fun found => ∀ e ∈ found, e.node.Leveled :=
  .after fun _ => .ite hP.expression.some .none

theorem valueParameter_always (hP : P.Leveled) :
    Always (valueParameter P) fun p => p.node.Leveled := by
  refine .after fun name => .after fun type => (valueAfterEq?_always hP).bind fun default h => ?_
  exact .pure ⟨trivial, by simp [(allLeveled_expr? _).mpr h]⟩

theorem parameterStep_always (hP : P.Leveled) :
    Always (parameterStep P) fun found => ∀ p ∈ found.item, p.node.Leveled := by
  refine .after fun _ => .ite .none_found (.after fun _ => .ite ?_ ?_)
  · refine (valueParameter_always hP).bind fun p hp => .after fun _ => .pure fun a ha => ?_
    exact Option.mem_some.mp ha ▸ hp
  · exact .after fun _ => .after fun _ => .after fun _ =>
      .ite (.after fun _ => .none_found) .none_found

theorem valueParameters_always (hP : P.Leveled) :
    Always (do return some (← valueParameters P)) fun ps => AllLeveled (parametersNode? ps) := by
  have hlist : Always (valueParameters P) fun ps => ∀ p ∈ ps, p.node.Leveled :=
    .after fun _ => (collect_always (parameterStep_always hP)).inBrackets.bind fun _ h =>
      .after fun _ => .pure h
  exact hlist.some.mono fun ps h => (allLeveled_parameters? ps).mpr h

theorem valueParameters?_always (hP : P.Leveled) :
    Always (valueParameters? P) fun ps => AllLeveled (parametersNode? ps) :=
  .after fun _ => .ite (valueParameters_always hP) (.pure trivial)

theorem requiredParameters_always (hP : P.Leveled) :
    Always (requiredParameters P) fun ps => AllLeveled (parametersNode? ps) :=
  .after fun _ => .ite (valueParameters_always hP) (.after fun _ => .pure trivial)

theorem typeBody?_always (hP : P.Leveled) :
    Always (typeBody? P) fun body => AllLeveled (bodyNode? body) := by
  have hbody : Always (typeBody P) fun ds => ∀ d ∈ ds, d.node.Leveled :=
    .after fun _ => braced_always _ _ hP.declaration
  refine .after fun _ => .ite (hbody.some.mono fun body h => ?_) (.pure trivial)
  exact (allLeveled_body? body).mpr h

theorem body?_always (hP : P.Leveled) :
    Always (body? P) fun found =>
      AllLeveled (blockNode? found.1) ∧ AllLeveled (exprNode? found.2) := by
  have hblock : Always (block? P) fun found => ∀ b ∈ found, b.node.Leveled :=
    .after fun _ => .ite hP.block.some .none
  refine hblock.bind fun found hfound => ?_
  cases found with
  | some block => exact .pure ⟨(allLeveled_block? _).mpr hfound, trivial⟩
  | none =>
    exact (valueAfterEq?_always hP).bind fun value h => .pure ⟨trivial, (allLeveled_expr? _).mpr h⟩

/-! ## Declarations -/

theorem dataDeclaration_always (hP : P.Leveled) (modifiers : List Token) (flavor : Option Token) :
    Always (dataDeclaration P modifiers flavor) fun d => d.node.Leveled := by
  refine .after fun head => (valueParameters?_always hP).bind fun parameters hp => ?_
  refine .after fun bindings => (typeBody?_always hP).bind fun body hb => .pure ⟨trivial, ?_⟩
  simp [hp, hb]

theorem traitDeclaration_always (hP : P.Leveled) (modifiers : List Token) :
    Always (traitDeclaration P modifiers) fun d => d.node.Leveled := by
  refine .after fun head => .after fun inherits => (typeBody?_always hP).bind fun body hb => ?_
  exact .pure ⟨trivial, by simp [hb]⟩

theorem typealiasDeclaration_always (modifiers : List Token) :
    Always (typealiasDeclaration P modifiers) fun d => d.node.Leveled :=
  .after fun head => .after fun type => .pure ⟨trivial, by simp⟩

theorem effectDeclaration_always (modifiers : List Token) :
    Always (effectDeclaration modifiers) fun d => d.node.Leveled :=
  .after fun head => .pure ⟨trivial, by simp⟩

theorem implDeclaration_always (hP : P.Leveled) (modifiers : List Token) :
    Always (implDeclaration P modifiers) fun d => d.node.Leveled := by
  refine .after fun keyword => .after fun dataType => .after fun traitType => ?_
  exact (typeBody?_always hP).bind fun body hb => .pure ⟨trivial, by simp [hb]⟩

theorem functionDeclaration_always (hP : P.Leveled) (modifiers : List Token) :
    Always (functionDeclaration P modifiers) fun d => d.node.Leveled := by
  refine .after fun keyword => .after fun generics => .after fun receiver => ?_
  refine (requiredParameters_always hP).bind fun parameters hp => ?_
  refine .after fun returnType => .after fun effects => (body?_always hP).bind fun body hb => ?_
  refine .pure ⟨trivial, ?_⟩
  simp [hp, hb.1, hb.2]

theorem accessorStep_always (hP : P.Leveled) :
    Always (accessorStep P) fun found => ∀ a ∈ found.item, a.node.Leveled := by
  have haccessor : Always (accessor P) fun a => a.node.Leveled := by
    refine .after fun keyword => .after fun parameter => (body?_always hP).bind fun body hb => ?_
    exact .pure ⟨trivial, by simp [hb.1, hb.2]⟩
  refine .after fun _ => .ite (haccessor.bind fun a ha => .pure fun b hb => ?_) .none_found
  exact Option.mem_some.mp hb ▸ ha

theorem propertyDeclaration_always (hP : P.Leveled) (modifiers : List Token) :
    Always (propertyDeclaration P modifiers) fun d => d.node.Leveled := by
  refine .after fun keyword => .after fun generics => .after fun receiver => ?_
  refine .after fun type => .after fun effects => ?_
  refine (valueAfterEq?_always hP).bind fun initializer hi => ?_
  refine (collect_always (accessorStep_always hP)).bind fun accessors ha => .pure ⟨trivial, ?_⟩
  simp [(allLeveled_expr? _).mpr hi, (allLeveled_accessors _).mpr ha]

theorem declaration_always (hP : P.Leveled) :
    Always (declaration P) fun found => ∀ d ∈ found, d.node.Leveled := by
  have hbad (first : Token) (due : Expectation) : Always (do
      complain (.mismatched due)
      return some (Declaration.bad first (← current)))
      fun found => ∀ d ∈ found, d.node.Leveled :=
    .after fun _ => .after fun _ => .pure fun _ h => Option.mem_some.mp h ▸ ⟨trivial, trivial⟩
  refine .after fun first => .after fun mods => .after fun k => ?_
  split
  · exact (dataDeclaration_always hP mods none).some
  · exact .after fun next => .ite
      (.after fun flavor => (dataDeclaration_always hP mods (some flavor)).some)
      (propertyDeclaration_always hP mods).some
  · exact .after fun flavor => .after fun _ =>
      .ite (dataDeclaration_always hP mods (some flavor)).some (hbad _ _)
  · exact (propertyDeclaration_always hP mods).some
  · exact (traitDeclaration_always hP mods).some
  · exact (typealiasDeclaration_always mods).some
  · exact (effectDeclaration_always mods).some
  · exact (implDeclaration_always hP mods).some
  · exact (functionDeclaration_always hP mods).some
  · exact .ite .none (hbad _ _)

/-! ## Statements -/

theorem statement_always (hP : P.Leveled) :
    Always (statement P) fun found => ∀ s ∈ found, s.node.Leveled := by
  have hlocal : Always (localVariable P) fun s => s.node.Leveled := by
    refine .after fun keyword => .after fun name => .after fun type => ?_
    refine (valueAfterEq?_always hP).bind fun initializer hi => .pure ⟨trivial, ?_⟩
    simp [(allLeveled_expr? _).mpr hi]
  have hexpression : Always (expressionStatement P) fun found => ∀ s ∈ found, s.node.Leveled := by
    refine .after fun before => hP.expression.bind fun target ht => .after fun here => .ite .none ?_
    refine .after fun _ => .ite (.after fun _ => ?_) (.pure fun s hs => ?_)
    · refine hP.expression.bind fun value hv => .pure fun s hs => ?_
      exact Option.mem_some.mp hs ▸ ⟨trivial, ht, hv, trivial⟩
    · exact Option.mem_some.mp hs ▸ ⟨trivial, ht, trivial⟩
  refine .after fun k => .after fun next => .ite hlocal.some (.ite ?_ hexpression)
  refine hP.declaration.bind fun found hfound => .pure fun s hs => ?_
  obtain ⟨d, hd, rfl⟩ := Option.map_eq_some_iff.mp hs
  exact ⟨trivial, hfound d hd, trivial⟩

theorem block_always (hP : P.Leveled) : Always (block P) fun b => b.node.Leveled := by
  have hstatement : Always (wholeStatement P) fun found => ∀ s ∈ found, s.node.Leveled := by
    refine (statement_always hP).bind fun found hfound => .after fun s => ?_
    exact .ite (.after fun _ => .pure hfound) (.pure hfound)
  refine .after fun _ => (braced_always _ _ hstatement).bind fun statements h => .pure ?_
  exact ⟨trivial, (allLeveled_statements _).mpr h⟩

/-! ## Files -/

theorem grammar_leveled (hP : P.Leveled) : (grammar P).Leveled where
  expression := expression_always hP
  block := block_always hP
  declaration := declaration_always hP

/-- **All productions find leveled phrases**, however deep they nest. -/
theorem grammarUpTo_leveled (depth : Nat) : (grammarUpTo depth).Leveled := by
  induction depth with
  | zero =>
    exact ⟨.after fun _ => .after fun _ => .pure ⟨trivial, trivial⟩,
      .after fun _ => .pure ⟨trivial, trivial⟩, .after fun _ => .none⟩
  | succ depth ih => exact grammar_leveled ih

theorem file_always (hP : P.Leveled) : Always (file P) fun f => f.node.Leveled := by
  have hstep : Always (declarationStep P) fun found => ∀ d ∈ found.item, d.node.Leveled :=
    .after fun _ => .ite .none_found (progress_always _ _ hP.declaration)
  refine .after fun package => .after fun imports => ?_
  refine (collect_always hstep).bind fun declarations h => .pure ⟨trivial, ?_⟩
  simp only [allLeveled_append, allLeveled_map, allLeveled_declarations]
  exact ⟨⟨fun p _ => p.leveled, fun i _ => i.leveled⟩, h⟩

end Parser

/-- **The tree of every token list is leveled.** -/
theorem parseTokens_leveled (tokens : List Token) : (parseTokens tokens).file.node.Leveled :=
  @Parser.file_always _ (Parser.grammarUpTo_leveled _) .significant _

end Yurin
