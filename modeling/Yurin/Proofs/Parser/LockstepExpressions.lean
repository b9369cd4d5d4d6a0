import Yurin.Parser.Expression
import Yurin.Proofs.Parser.Lockstep

/-!
# Types and expressions in lockstep

`typeExpr_lockstep` and `expression_lockstep`: over productions that keep two states abreast, so do
the parsers of types and of expressions. Their proofs follow the parsers part by part. Line breaks
are looked at between an operand and what may continue it; all of that happens at the level of the
outer brackets, where the mode of lines says whether breaks count.
-/

namespace Yurin.Parser

variable {α : Type} {mode : LineMode} {pre : State → Prop} {P : Productions}
  {type : Parser (Option TypeExpr)}

/-! ## Types -/

theorem dottedStep_lockstep : Steady mode dottedStep := by
  unfold dottedStep
  refine .whenPair (observes_isAt_singleton _) ?_ (.pure _)
  refine .advance_pair (List.forall_mem_singleton.mpr (turns_mark rfl)) fun _ => ?_
  exact .advance turns_identifier fun _ => .pure _

theorem dottedRest_lockstep : Steady mode dottedRest := collect_lockstep dottedStep_lockstep

theorem dottedName_lockstep : Steady mode dottedName := by
  unfold dottedName
  refine expectIdentifier_lockstep.bind fun first => ?_
  cases first with
  | none => exact .pure _
  | some first => exact dottedRest_lockstep.bind fun _ => .pure _

theorem typeStep_lockstep (h : Steady mode type) : Steady mode (typeStep type) := by
  unfold typeStep
  refine h.bind fun found => ?_
  cases found with
  | none => exact .pure _
  | some t => exact (accept_lockstep (turns_mark rfl)).bind fun _ => .pure _

theorem typeArgumentStep_lockstep (h : Steady mode type) : Steady mode (typeArgumentStep type) :=
  .whenAny (.pure _) (typeStep_lockstep h)

theorem typeArguments_lockstep (h : Steady .ignored type) :
    SteadyAt mode (.mark .leftAngle) (typeArguments type) := by
  refine .advance (turns_mark rfl) fun _ => inBrackets_lockstep ?_
  refine (collect_lockstep (typeArgumentStep_lockstep h)).bind fun types => ?_
  exact (expect_lockstep (turns_mark rfl)).bind fun _ => .pure _

theorem typeList_lockstep (h : Steady mode type) : Steady mode (typeList type) :=
  collect_lockstep (typeStep_lockstep h)

theorem typeArguments?_lockstep (h : Steady .ignored type) : Steady mode (typeArguments? type) :=
  .whenSameLine (typeArguments_lockstep h) (.pure _)

theorem nullableMark_lockstep : Steady mode nullableMark :=
  .whenSameLine (.advance (turns_mark rfl) fun _ => .pure _) (.pure _)

theorem regularType_lockstep (h : Steady .ignored type) : Steady mode (regularType type) := by
  unfold regularType
  refine (accept_lockstep (turns_keyword .exist)).bind fun existential => ?_
  refine dottedName_lockstep.bind fun name => ?_
  cases name with
  | none => exact .pure _
  | some name =>
    refine (typeArguments?_lockstep h).bind fun arguments => ?_
    exact nullableMark_lockstep.bind fun _ => .pure _

/-- **Types keep two states abreast.** -/
theorem typeExpr_lockstep (h : Steady .ignored type) : Steady mode (typeExpr type) := by
  unfold typeExpr
  refine .onKind fun k => ?_
  split
  · refine .advance parens.opens fun _ => (inBrackets_lockstep h).bind fun inner => ?_
    exact (expect_lockstep parens.closes).bind fun _ => .pure _
  · exact .advance (turns_keyword _) fun _ => .pure _
  · exact .advance (turns_keyword _) fun _ => .pure _
  · exact (regularType_lockstep h).weaken fun _ _ => trivial
  · exact (regularType_lockstep h).weaken fun _ _ => trivial
  · exact .complain _ (.pure _)

/-! ## Suffixes -/

/-- The productions keep two states abreast. -/
structure Productions.Lockstep (P : Productions) : Prop where
  type : ∀ mode, Steady mode P.type
  expression : ∀ mode, Steady mode P.expression
  block : ∀ mode, SteadyAt mode (.mark .leftBrace) P.block
  declaration : ∀ mode, Steady mode P.declaration

theorem chain_lockstep {operand : Parser Expr} {suffix : Parser (Option Suffix)}
    (ho : Steady mode operand) (hx : Steady mode suffix) : Steady mode (chain operand suffix) := by
  unfold chain
  have hstep : Steady mode (suffixStep suffix) := hx.bind fun found => by
    cases found <;> exact .pure _
  exact ho.bind fun first => (collect_lockstep hstep).bind fun _ => .pure _

theorem observes_continues (operators : List Kind) :
    Observes mode [] (continues operators) fun s =>
      operators.contains s.current.token.kind &&
        (!(mode == .significant && s.current.afterBreak) || joinsLines s.current.token.kind) := by
  refine ⟨fun _ => rfl, fun outer s t hfit hst => ?_⟩
  rw [hst.token, observes_atBreak.same hfit hst]

/-- An operator that continues an expression, and what follows it. -/
theorem whenContinues {operators : List Kind} (hops : ∀ k ∈ operators, Turns [] [] k)
    {f : Token → Parser α} {q : Parser α} (hf : ∀ t, Steady mode (f t)) (hq : Steady mode q) :
    Steady mode (do if ← continues operators then advance >>= f else q) := by
  refine .test (observes_continues operators) ?_ hq
  refine .advance_next (fun s hs => ?_) (fun _ _ _ _ => trivial) hf
  exact hops _ (List.contains_iff_mem.mp (Bool.and_eq_true_iff.mp hs).1)

theorem turns_words (words : List Keyword) : ∀ k ∈ words.map Kind.keyword, Turns [] [] k := by
  intro k hk
  obtain ⟨w, -, rfl⟩ := List.mem_map.mp hk
  exact turns_keyword w

theorem turns_marks (marks : List Mark) (h : ∀ m ∈ marks, m.isBracket = false) :
    ∀ k ∈ marks.map Kind.mark, Turns [] [] k := by
  intro k hk
  obtain ⟨m, hm, rfl⟩ := List.mem_map.mp hk
  exact turns_mark (h m hm)

theorem binarySuffix_lockstep {operators : List Mark} (h : ∀ m ∈ operators, m.isBracket = false)
    {operand : Parser Expr} (ho : Steady mode operand) :
    Steady mode (binarySuffix operators operand) :=
  whenContinues (turns_marks operators h) (fun _ => ho.bind fun _ => .pure _) (.pure _)

theorem testSuffix_lockstep (hP : P.Lockstep) {operand : Parser Expr} (ho : Steady mode operand) :
    Steady mode (testSuffix P operand) := by
  refine whenContinues (turns_words [.is, .notIs])
    (fun _ => (hP.type mode).bind fun _ => .pure _) ?_
  exact whenContinues (turns_words [.in_, .notIn]) (fun _ => ho.bind fun _ => .pure _) (.pure _)

theorem castSuffix_lockstep (hP : P.Lockstep) : Steady mode (castSuffix P) :=
  whenContinues (turns_words [.as, .safeAs]) (fun _ => (hP.type mode).bind fun _ => .pure _)
    (.pure _)

theorem infixSuffix_lockstep {operand : Parser Expr} (ho : Steady mode operand) :
    Steady mode (infixSuffix operand) :=
  .whenSameLine (.advance turns_identifier fun _ => ho.bind fun _ => .pure _) (.pure _)

theorem argumentName?_lockstep : Steady mode argumentName? := by
  unfold argumentName?
  refine .whenPair (observes_isAt_singleton _) ?_ (.pure _)
  refine .advance_pair (List.forall_mem_singleton.mpr turns_identifier) fun _ => ?_
  exact .advance (turns_mark rfl) fun _ => .pure _

theorem argument_lockstep (hP : P.Lockstep) : Steady mode (argument P) := by
  unfold argument
  exact argumentName?_lockstep.bind fun _ => (hP.expression mode).bind fun _ => .pure _

theorem postfixSuffix_lockstep (hP : P.Lockstep) : Steady mode (postfixSuffix P) := by
  unfold postfixSuffix
  refine .whenSameLine ((bracketed_lockstep parens (argument_lockstep hP)).bind fun _ => .pure _) ?_
  refine .whenSameLine
    ((bracketed_lockstep squares (hP.expression .ignored)).bind fun _ => .pure _) ?_
  refine .whenPair (observes_isAtAny _) ?_ ?_
  · refine .advance_pair (turns_marks [.dot, .safeDot] (by decide)) fun _ => ?_
    exact .advance turns_identifier fun _ => .pure _
  · exact .whenSameLine (.advance (turns_mark rfl) fun _ => .pure _) (.pure _)

/-! ## Conditionals and matches -/

theorem branch_lockstep (hP : P.Lockstep) : Steady mode (branch P) :=
  .whenAt ((hP.block mode).bind fun _ => .pure _) ((hP.expression mode).bind fun _ => .pure _)

/-- What follows an opening parenthesis closes it. -/
theorem parenthesized_lockstep (hP : P.Lockstep) :
    Lockstep mode pre [.leftParen] [] (parenthesized P) := by
  unfold parenthesized
  refine ((inBrackets_lockstep (hP.expression .ignored)).weaken fun _ _ => trivial).bind
    fun inner => ?_
  exact (expect_lockstep parens.closes).bind fun _ => .pure _

theorem condition?_lockstep (hP : P.Lockstep) : Steady mode (condition? P) :=
  .expect parens.opens (fun _ => (parenthesized_lockstep hP).bind fun _ => .pure _) (.pure _)

theorem elseBranch?_lockstep (hP : P.Lockstep) : Steady mode (elseBranch? P) := by
  unfold elseBranch?
  refine .observe (observes_isAt _) fun b => .observe observes_atBreak fun atBreak => ?_
  refine .observe observes_nextKind fun next => .ite (fun h => ?_) fun _ => .pure _
  rw [Bool.and_eq_true] at h
  refine .advance_next (fun s hs => ?_) (fun _ _ _ _ => trivial)
    fun _ => (branch_lockstep hP).bind fun _ => .pure _
  rw [beq_iff_eq.mp (hs.1.1.2.trans h.1)]
  exact turns_keyword .else_

theorem conditional_lockstep (hP : P.Lockstep) :
    SteadyAt mode (.keyword .if_) (conditional P) := by
  refine .advance (turns_keyword _) fun _ => (condition?_lockstep hP).bind fun condition => ?_
  refine (branch_lockstep hP).bind fun thenBranch => ?_
  exact (elseBranch?_lockstep hP).bind fun _ => .pure _

theorem armCondition_lockstep (hP : P.Lockstep) : Steady mode (armCondition P) := by
  unfold armCondition
  refine .onKind fun k => ?_
  split
  · exact .advance (turns_keyword _) fun _ => (hP.type mode).bind fun _ => .pure _
  · exact .advance (turns_keyword _) fun _ => (hP.type mode).bind fun _ => .pure _
  · exact .advance (turns_keyword _) fun _ => (hP.expression mode).bind fun _ => .pure _
  · exact .advance (turns_keyword _) fun _ => (hP.expression mode).bind fun _ => .pure _
  · refine .observe observes_consumed fun n => ?_
    refine .bind ((hP.expression mode).weaken fun _ _ => trivial) fun value => ?_
    exact .observe observes_consumed fun n' => .ite (fun _ => .pure _) fun _ => .pure _

theorem conditionStep_lockstep (hP : P.Lockstep) : Steady mode (conditionStep P) := by
  unfold conditionStep
  refine (armCondition_lockstep hP).bind fun found => ?_
  cases found with
  | none => exact .pure _
  | some c => exact (accept_lockstep (turns_mark rfl)).bind fun _ => .pure _

theorem armBody_lockstep (hP : P.Lockstep) (isElse : Bool) (conditions : List Condition) :
    Steady mode (armBody P isElse conditions) :=
  .expect (turns_mark rfl) (fun _ => (branch_lockstep hP).bind fun _ => .pure _) (.pure _)

theorem matchArm_lockstep (hP : P.Lockstep) : Steady mode (matchArm P) := by
  refine .accept (turns_keyword .else_) ((armBody_lockstep hP true []).bind fun _ => .pure _) ?_
  refine (collect_lockstep (conditionStep_lockstep hP)).bind fun conditions => ?_
  exact .ite (fun _ => .pure _) fun _ =>
    (armBody_lockstep hP false conditions).bind fun _ => .pure _

theorem subject?_lockstep (hP : P.Lockstep) : Steady mode (subject? P) :=
  .accept parens.opens ((parenthesized_lockstep hP).bind fun _ => .pure _) (.pure _)

theorem matching_lockstep (hP : P.Lockstep) : SteadyAt mode (.keyword .match_) (matching P) := by
  refine .advance (turns_keyword _) fun _ => (subject?_lockstep hP).bind fun subject => ?_
  refine .expect braces.opens (fun _ => ?_) (.pure _)
  exact (braced_lockstep .matchArm endsArm (matchArm_lockstep hP)).bind fun _ => .pure _

/-! ## Primaries and operators -/

theorem jump_lockstep (hP : P.Lockstep) {w : Keyword} : SteadyAt mode (.keyword w) (jump P) := by
  refine .advance (turns_keyword w) fun keyword => .observe observes_atBreak fun atBreak => ?_
  refine .observe observes_kind fun k => .ite (fun _ => ?_) fun _ => .pure _
  exact .bind ((hP.expression mode).weaken fun _ _ => trivial) fun _ => .pure _

theorem primary_lockstep (hP : P.Lockstep) : Steady mode (primary P) := by
  unfold primary
  refine .onKind fun k => ?_
  split
  · exact .advance turns_intLiteral fun _ => .pure _
  · exact .advance turns_stringLiteral fun _ => .pure _
  · exact .advance (turns_keyword _) fun _ => .pure _
  · exact .advance turns_identifier fun _ => dottedRest_lockstep.bind fun _ => .pure _
  · exact .advance parens.opens fun _ => (parenthesized_lockstep hP).bind fun _ => .pure _
  · exact conditional_lockstep hP
  · exact matching_lockstep hP
  · exact jump_lockstep hP
  · exact jump_lockstep hP
  · exact jump_lockstep hP
  · exact .advance (turns_mark rfl) fun _ => expectIdentifier_lockstep.bind fun _ => .pure _
  · exact .complain _ (grows_current.bind fun _ => .pure _)

theorem prefixStep_lockstep : Steady mode prefixStep :=
  .whenAny (.advance_any (turns_marks [.minus, .plus, .not] (by decide)) fun _ => .pure _) (.pure _)

theorem prefixed_lockstep (hP : P.Lockstep) : Steady mode (prefixed P) := by
  refine (collect_lockstep prefixStep_lockstep).bind fun operators => ?_
  exact (chain_lockstep (primary_lockstep hP) (postfixSuffix_lockstep hP)).bind fun _ => .pure _

/-- Every level of precedence keeps two states abreast when its operands do. -/
theorem levels_lockstep (hP : P.Lockstep) {suffix : Parser Expr → Parser (Option Suffix)}
    (h : suffix ∈ levels P) {operand : Parser Expr} (ho : Steady mode operand) :
    Steady mode (suffix operand) := by
  -- All levels but three are of binary operators.
  simp only [levels, List.mem_cons, List.not_mem_nil, or_false] at h
  rcases h with rfl | rfl | rfl | rfl | rfl | rfl | rfl | rfl | rfl | rfl | rfl
  case inr.inr.inr.inr.inl => exact testSuffix_lockstep hP ho
  case inr.inr.inr.inr.inr.inr.inl => exact infixSuffix_lockstep ho
  case inr.inr.inr.inr.inr.inr.inr.inr.inr.inr => exact castSuffix_lockstep hP
  all_goals exact binarySuffix_lockstep (by decide) ho

/-- **Expressions keep two states abreast.** -/
theorem expression_lockstep (hP : P.Lockstep) : Steady mode (expression P) := by
  have hfold (suffixes : List (Parser Expr → Parser (Option Suffix)))
      (h : ∀ suffix ∈ suffixes, suffix ∈ levels P) :
      Steady mode (suffixes.foldr (fun suffix operand => chain operand (suffix operand))
        (prefixed P)) := by
    induction suffixes with
    | nil => exact prefixed_lockstep hP
    | cons suffix rest ih =>
      have ho := ih fun x hx => h x (List.mem_cons_of_mem _ hx)
      exact chain_lockstep ho (levels_lockstep hP (h suffix List.mem_cons_self) ho)
  exact hfold (levels P) fun _ h => h

end Yurin.Parser
