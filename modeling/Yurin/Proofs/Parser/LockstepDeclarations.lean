import Yurin.Parser
import Yurin.Proofs.Parser.LockstepExpressions

/-!
# Declarations and files in lockstep

`declaration_lockstep` and `block_lockstep`: over productions that keep two states abreast, so do
the parsers of declarations and of blocks. By induction on the nesting all productions do
(`grammarUpTo_lockstep`), and with them the parser of a file (`file_lockstep`).

Statements are the one place where the parser looks at line breaks without asking for the mode of
lines. They stand between braces, where breaks count.
-/

namespace Yurin.Parser

variable {mode : LineMode} {pre : State → Prop} {before : List Mark} {P : Productions}

/-! ## Heads and parameters -/

theorem turns_modifier {k : Kind} (h : k.isModifier = true) : Turns before before k := by
  cases k with
  | keyword w => exact turns_keyword w
  | _ => cases h

theorem modifierStep_lockstep : Steady mode modifierStep := by
  refine .onKind fun k => .ite (fun _ => .pure _) fun hk => ?_
  have hmodifier : SteadyAt mode k (advance >>= fun t => pure (Step.found t)) :=
    .advance (turns_modifier (by simpa using hk)) fun _ => .pure _
  refine .observe observes_nextKind fun next => .ite (fun _ => .pure _) fun _ => ?_
  exact hmodifier.weaken fun _ hs => hs.1

theorem modifiers_lockstep : Steady mode modifiers := collect_lockstep modifierStep_lockstep

theorem typeParameterStep_lockstep : Steady mode typeParameterStep := by
  refine .whenAny (.pure _) (expectIdentifier_lockstep.bind fun name => ?_)
  cases name with
  | none => exact .pure _
  | some name => exact (accept_lockstep (turns_mark rfl)).bind fun _ => .pure _

theorem typeParameters?_lockstep : Steady mode typeParameters? := by
  refine .whenAt (.bind ?_ fun _ => .pure _) (.pure _)
  refine .advance (turns_mark rfl) fun _ => ?_
  refine (collect_lockstep typeParameterStep_lockstep).bind fun names => ?_
  exact (expect_lockstep (turns_mark rfl)).bind fun _ => .pure _

theorem typeAfter?_lockstep (hP : P.Lockstep) {m : Mark} (hm : m.isBracket = false) :
    Steady mode (typeAfter? P m) :=
  .accept (turns_mark hm) (hP.type mode) (.pure _)

theorem typeAfter_lockstep (hP : P.Lockstep) {m : Mark} (hm : m.isBracket = false) :
    Steady mode (typeAfter P m) :=
  .expect (turns_mark hm) (fun _ => hP.type mode) (.pure _)

theorem typesAfter?_lockstep (hP : P.Lockstep) {m : Mark} (hm : m.isBracket = false) :
    Steady mode (typesAfter? P m) :=
  .accept (turns_mark hm) (typeList_lockstep (hP.type mode)) (.pure _)

theorem valueAfterEq?_lockstep (hP : P.Lockstep) : Steady mode (valueAfterEq? P) :=
  .accept (turns_mark rfl) ((hP.expression mode).bind fun _ => .pure _) (.pure _)

theorem valueParameter_lockstep (hP : P.Lockstep) :
    SteadyAt mode .identifier (valueParameter P) := by
  refine .advance turns_identifier fun name => (typeAfter_lockstep hP rfl).bind fun type => ?_
  exact (valueAfterEq?_lockstep hP).bind fun _ => .pure _

theorem badParameter_lockstep : Lockstep mode pre before before badParameter := by
  refine .complain _ ((grows_skipUntil _).bind fun _ => .bind (.of_look fun _ => rfl) fun b => ?_)
  exact .ite (grows_skip.bind fun _ => .pure _) (.pure _)

theorem parameterStep_lockstep (hP : P.Lockstep) : Steady mode (parameterStep P) := by
  refine .whenAny (.pure _) (.whenAt ?_ badParameter_lockstep)
  refine (valueParameter_lockstep hP).bind fun parameter => ?_
  exact (accept_lockstep (turns_mark rfl)).bind fun _ => .pure _

theorem valueParameters_lockstep (hP : P.Lockstep) :
    SteadyAt mode (.mark .leftParen) (valueParameters P) := by
  refine .advance parens.opens fun _ => ?_
  refine (inBrackets_lockstep (collect_lockstep (parameterStep_lockstep hP))).bind fun found => ?_
  exact (expect_lockstep parens.closes).bind fun _ => .pure _

theorem valueParameters?_lockstep (hP : P.Lockstep) : Steady mode (valueParameters? P) :=
  .whenAt ((valueParameters_lockstep hP).bind fun _ => .pure _) (.pure _)

theorem requiredParameters_lockstep (hP : P.Lockstep) : Steady mode (requiredParameters P) :=
  .whenAt ((valueParameters_lockstep hP).bind fun _ => .pure _) (.complain _ (.pure _))

theorem typeBody?_lockstep (hP : P.Lockstep) : Steady mode (typeBody? P) := by
  refine .whenAt (.bind ?_ fun _ => .pure _) (.pure _)
  exact .advance braces.opens fun _ => braced_lockstep _ _ (hP.declaration .significant)

theorem body?_lockstep (hP : P.Lockstep) : Steady mode (body? P) := by
  have hblock : Steady mode (block? P) :=
    .whenAt ((hP.block mode).bind fun _ => .pure _) (.pure _)
  refine hblock.bind fun found => ?_
  cases found with
  | some block => exact .pure _
  | none => exact (valueAfterEq?_lockstep hP).bind fun _ => .pure _

/-! ## Declarations -/

theorem namedHead_lockstep (modifiers : List Token) {w : Keyword} :
    SteadyAt mode (.keyword w) (namedHead modifiers) := by
  refine .advance (turns_keyword w) fun keyword => expectIdentifier_lockstep.bind fun name => ?_
  exact typeParameters?_lockstep.bind fun _ => .pure _

theorem dataDeclaration_lockstep (hP : P.Lockstep) (modifiers : List Token)
    (flavor : Option Token) :
    SteadyAt mode (.keyword .data) (dataDeclaration P modifiers flavor) := by
  refine (namedHead_lockstep modifiers).bind fun head => ?_
  refine (valueParameters?_lockstep hP).bind fun parameters => ?_
  refine (typesAfter?_lockstep hP rfl).bind fun bindings => ?_
  exact (typeBody?_lockstep hP).bind fun _ => .pure _

theorem traitDeclaration_lockstep (hP : P.Lockstep) (modifiers : List Token) :
    SteadyAt mode (.keyword .trait) (traitDeclaration P modifiers) := by
  refine (namedHead_lockstep modifiers).bind fun head => ?_
  refine (typesAfter?_lockstep hP rfl).bind fun inherits => ?_
  exact (typeBody?_lockstep hP).bind fun _ => .pure _

theorem typealiasDeclaration_lockstep (hP : P.Lockstep) (modifiers : List Token) :
    SteadyAt mode (.keyword .typealias) (typealiasDeclaration P modifiers) := by
  refine (namedHead_lockstep modifiers).bind fun head => ?_
  exact (typeAfter_lockstep hP rfl).bind fun _ => .pure _

theorem implDeclaration_lockstep (hP : P.Lockstep) (modifiers : List Token) :
    SteadyAt mode (.keyword .impl) (implDeclaration P modifiers) := by
  refine .advance (turns_keyword _) fun keyword => (hP.type mode).bind fun dataType => ?_
  refine (typeAfter_lockstep hP rfl).bind fun traitType => ?_
  exact (typeBody?_lockstep hP).bind fun _ => .pure _

/-! ### Receivers -/

theorem explicitReceiver_lockstep (hP : P.Lockstep) : Steady mode (explicitReceiver P) := by
  refine (hP.type mode).bind fun receiver => .whenAny ?_ ?_
  · refine .advance_any (turns_marks [.dot, .safeDot] (by decide)) fun _ => ?_
    exact expectIdentifier_lockstep.bind fun _ => .pure _
  · exact (expect_lockstep (turns_mark rfl)).bind fun _ => .pure _

theorem receiverDot_lockstep : Steady mode receiverDot := by
  refine .accept (turns_mark rfl) (.pure _) ?_
  refine (accept_lockstep (turns_mark rfl)).bind fun nullable => ?_
  exact (expect_lockstep (turns_mark rfl)).bind fun _ => .pure _

theorem genericReceiver_lockstep (hP : P.Lockstep) (parts : List Identifier) :
    SteadyAt mode (.mark .leftAngle) (genericReceiver P parts) := by
  refine (typeArguments_lockstep (hP.type .ignored)).bind fun types => ?_
  refine receiverDot_lockstep.bind fun nullable => ?_
  exact expectIdentifier_lockstep.bind fun _ => .pure _

theorem receiverAndName_lockstep (hP : P.Lockstep) : Steady mode (receiverAndName P) := by
  refine .whenAny ?_ (dottedName_lockstep.bind fun name => ?_)
  · exact (explicitReceiver_lockstep hP).weaken fun _ _ => trivial
  cases name with
  | none => exact .pure _
  | some name =>
    obtain ⟨parts⟩ := name
    refine .whenAt (genericReceiver_lockstep hP parts) ?_
    refine .whenPair (observes_isAt_singleton _) ?_ ?_
    · refine .advance_pair (List.forall_mem_singleton.mpr (turns_mark rfl)) fun _ => ?_
      exact .advance turns_identifier fun _ => .pure _
    · split <;> exact .pure _

theorem functionDeclaration_lockstep (hP : P.Lockstep) (modifiers : List Token) :
    SteadyAt mode (.keyword .fun_) (functionDeclaration P modifiers) := by
  refine .advance (turns_keyword _) fun keyword => typeParameters?_lockstep.bind fun generics => ?_
  refine (receiverAndName_lockstep hP).bind fun receiver => ?_
  refine (requiredParameters_lockstep hP).bind fun parameters => ?_
  refine (typeAfter?_lockstep hP rfl).bind fun returnType => ?_
  refine (typesAfter?_lockstep hP rfl).bind fun effects => ?_
  exact (body?_lockstep hP).bind fun _ => .pure _

/-! ### Properties -/

theorem setterParameter?_lockstep (keyword : Token) :
    Lockstep mode Anywhere before before (setterParameter? keyword) := by
  unfold setterParameter?
  refine .observe (observes_isAt _) fun b => .ite (fun h => ?_) fun _ => .pure _
  rw [Bool.and_eq_true] at h
  refine .advance_next (fun s hs => ?_) (fun _ _ _ _ => trivial) fun _ => .pure _
  rw [beq_iff_eq.mp (hs.2.trans h.2)]
  exact turns_identifier

theorem accessorParameter?_lockstep (keyword : Token) :
    Steady mode (accessorParameter? keyword) := by
  refine .accept parens.opens ((setterParameter?_lockstep keyword).bind fun parameter => ?_)
    (.pure _)
  exact (expect_lockstep parens.closes).bind fun _ => .pure _

theorem accessorStep_lockstep (hP : P.Lockstep) : Steady mode (accessorStep P) := by
  refine .whenAny (.bind ?_ fun _ => .pure _) (.pure _)
  refine .advance_any (turns_words [.get, .set]) fun keyword => ?_
  refine (accessorParameter?_lockstep keyword).bind fun parameter => ?_
  exact (body?_lockstep hP).bind fun _ => .pure _

theorem propertyDeclaration_lockstep (hP : P.Lockstep) (modifiers : List Token) {w : Keyword} :
    SteadyAt mode (.keyword w) (propertyDeclaration P modifiers) := by
  refine .advance (turns_keyword w) fun keyword => typeParameters?_lockstep.bind fun generics => ?_
  refine (receiverAndName_lockstep hP).bind fun receiver => ?_
  refine (typeAfter?_lockstep hP rfl).bind fun type => ?_
  refine (typesAfter?_lockstep hP rfl).bind fun effects => ?_
  refine (valueAfterEq?_lockstep hP).bind fun initializer => ?_
  exact (collect_lockstep (accessorStep_lockstep hP)).bind fun _ => .pure _

/-- **Declarations keep two states abreast.** -/
theorem declaration_lockstep (hP : P.Lockstep) : Steady mode (declaration P) := by
  unfold declaration
  refine .observe observes_current fun first => ?_
  refine .bind (modifiers_lockstep.weaken fun _ _ => trivial) fun mods => .onKind fun k => ?_
  -- Where the declaration is missing there is a complaint, and then nothing is asked.
  have hbad (due : Expectation) (before : List Mark) :
      Lockstep mode Anywhere before before (do
        complain (.mismatched due)
        return some (Declaration.bad first (← current))) :=
    .complain _ (grows_current.bind fun _ => .pure _)
  split
  · exact (dataDeclaration_lockstep hP mods none).bind fun _ => .pure _
  · refine .observe observes_nextKind fun next => .ite (fun h => ?_) fun _ => ?_
    · refine .advance_next (fun s hs => hs.1 ▸ turns_keyword _) (fun s s' hs hnext => ?_)
        fun flavor => (dataDeclaration_lockstep hP mods (some flavor)).bind fun _ => .pure _
      rw [At, hnext, hs.2, beq_iff_eq.mp h]
    · exact .bind ((propertyDeclaration_lockstep hP mods).weaken fun _ hs => hs.1) fun _ => .pure _
  · refine .advance (turns_keyword _) fun flavor => ?_
    refine .whenAt ((dataDeclaration_lockstep hP mods (some flavor)).bind fun _ => .pure _) ?_
    exact hbad _ _
  · exact (propertyDeclaration_lockstep hP mods).bind fun _ => .pure _
  · exact (traitDeclaration_lockstep hP mods).bind fun _ => .pure _
  · exact (typealiasDeclaration_lockstep hP mods).bind fun _ => .pure _
  · exact .bind ((namedHead_lockstep mods).bind fun _ => .pure _) fun _ => .pure _
  · exact (implDeclaration_lockstep hP mods).bind fun _ => .pure _
  · exact (functionDeclaration_lockstep hP mods).bind fun _ => .pure _
  · exact .ite (fun _ => .pure _) fun _ => (hbad _ _).weaken fun _ _ => trivial

/-! ## Statements -/

theorem localVariable_lockstep (hP : P.Lockstep) {k : Kind} (hk : Turns [] [] k) :
    SteadyAt mode k (localVariable P) := by
  refine .advance hk fun keyword => expectIdentifier_lockstep.bind fun name => ?_
  refine (typeAfter?_lockstep hP rfl).bind fun type => ?_
  exact (valueAfterEq?_lockstep hP).bind fun _ => .pure _

theorem expressionStatement_lockstep (hP : P.Lockstep) :
    Steady mode (expressionStatement P) := by
  refine .observe observes_consumed fun n => ?_
  refine .bind ((hP.expression mode).weaken fun _ _ => trivial) fun target => ?_
  refine .observe observes_consumed fun n' => .ite (fun _ => .pure _) fun _ => ?_
  refine .whenSameLine ?_ (.pure _)
  exact .advance (turns_mark rfl) fun _ => (hP.expression mode).bind fun _ => .pure _

theorem statement_lockstep (hP : P.Lockstep) : Steady mode (statement P) := by
  refine .onKind fun k => .observe observes_nextKind fun next => .ite (fun h => ?_) fun _ => ?_
  · have hk : Turns [] [] k :=
      turns_words [.val, .var] k (List.contains_iff_mem.mp (Bool.and_eq_true_iff.mp h).1)
    exact .bind ((localVariable_lockstep hP hk).weaken fun _ hs => hs.1) fun _ => .pure _
  · refine .ite (fun _ => ?_) fun _ => (expressionStatement_lockstep hP).weaken fun _ _ => trivial
    exact .bind ((hP.declaration mode).weaken fun _ _ => trivial) fun _ => .pure _

/-- Whether a statement may end before the current token. -/
def statementEnds : Parser Bool := do
  let here := (← get).current
  return here.token.kind == .eof || endsStatement here

theorem wholeStatement_eq (P : Productions) :
    wholeStatement P = (do
      let found ← statement P
      if !(← statementEnds) then recoverTo .statementEnd endsStatement
      return found) :=
  rfl

/-- Where line breaks count, the end of a statement is seen alike. -/
theorem observes_statementEnds :
    Observes .significant [] statementEnds fun s =>
      s.current.token.kind == .eof || endsStatement s.current := by
  refine ⟨fun _ => rfl, fun outer s t hfit hst => ?_⟩
  rw [endsStatement, endsStatement, hst.token, hst.breaks (hfit rfl)]

theorem wholeStatement_lockstep (hP : P.Lockstep) : Steady .significant (wholeStatement P) := by
  rw [wholeStatement_eq]
  refine (statement_lockstep hP).bind fun found => .observe observes_statementEnds fun b => ?_
  exact .ite (fun _ => recoverTo_lockstep _ _ (.pure _)) fun _ => .pure _

/-- **Blocks keep two states abreast.** -/
theorem block_lockstep (hP : P.Lockstep) : SteadyAt mode (.mark .leftBrace) (block P) := by
  refine .advance braces.opens fun _ => .bind ?_ fun _ => .pure _
  exact braced_lockstep _ _ (wholeStatement_lockstep hP)

/-! ## Files -/

theorem grammar_lockstep (hP : P.Lockstep) : (grammar P).Lockstep where
  type _ := typeExpr_lockstep (hP.type .ignored)
  expression _ := expression_lockstep hP
  block _ := block_lockstep hP
  declaration _ := declaration_lockstep hP

theorem empty_lockstep : Productions.empty.Lockstep where
  type _ := giveUp_lockstep.bind fun _ => .pure _
  expression _ := giveUp_lockstep.bind fun _ => .observe observes_current fun _ => .pure _
  block _ := giveUp_lockstep.bind fun _ => .pure _
  declaration _ := giveUp_lockstep.bind fun _ => .pure _

/-- All productions keep two states abreast, by induction on the depth of the nesting. -/
theorem grammarUpTo_lockstep (depth : Nat) : (grammarUpTo depth).Lockstep := by
  induction depth with
  | zero => exact empty_lockstep
  | succ depth ih => exact grammar_lockstep ih

theorem packageHeader?_lockstep : Steady mode packageHeader? := by
  refine .whenAt (.advance (turns_keyword _) fun keyword => ?_) (.pure _)
  exact dottedName_lockstep.bind fun _ => .pure _

theorem importHeader_lockstep : SteadyAt mode (.keyword .import_) importHeader := by
  refine .advance (turns_keyword _) fun keyword => dottedName_lockstep.bind fun name => ?_
  refine .whenPair (observes_isAt_singleton _) ?_ ?_
  · refine .advance_pair (List.forall_mem_singleton.mpr (turns_mark rfl)) fun _ => ?_
    exact .advance (turns_mark rfl) fun _ => .pure _
  · refine .accept (turns_keyword .as) ?_ (.pure _)
    exact expectIdentifier_lockstep.bind fun _ => .pure _

theorem importStep_lockstep : Steady mode importStep :=
  .whenAt (importHeader_lockstep.bind fun _ => .pure _) (.pure _)

theorem declarationStep_lockstep (hP : P.Lockstep) : Steady mode (declarationStep P) :=
  .whenAt (.pure _) (progress_lockstep _ _ (hP.declaration mode))

/-- **Files keep two states abreast.** -/
theorem file_lockstep (hP : P.Lockstep) : Steady mode (file P) := by
  refine packageHeader?_lockstep.bind fun package => ?_
  refine (collect_lockstep importStep_lockstep).bind fun imports => ?_
  exact (collect_lockstep (declarationStep_lockstep hP)).bind fun _ => .pure _

end Yurin.Parser
