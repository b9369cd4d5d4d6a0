import Yurin.Proofs.Parser.Expressions
import Yurin.Proofs.Parser.Lockstep
import Yurin.Proofs.Tree.Levels

/-!
# Every tree of the parser is leveled

`Always p good`: whatever the parser `p` finds is `good`, in every mode and state, also while it
recovers. Nothing is asked of the state, so the rules for sequences, branches and loops are those of
the results alone.

The suffixes of level `n` turn an operand of at least that level into one of that level, and take
right operands of the next (`levels_always`). So the parsers of the levels, each over the next, find
leveled trees (`expression_always`), and with them all productions do (`grammarUpTo_leveled`).
-/

namespace Yurin

/-- An expression without a wrong operand, of level `n` or more. -/
def Expr.Binds (n : Nat) (e : Expr) : Prop := e.node.Leveled ∧ n ≤ e.node.level

theorem Node.binds_mk {n : Nat} {label : Label} {children : List Node}
    (hadmits : label.Admits children) (hchildren : AllLeveled children)
    (hlevel : n ≤ label.level) :
    (Node.mk label children).Leveled ∧ n ≤ (Node.mk label children).level := by
  rw [Node.leveled_mk]
  exact ⟨⟨hadmits, hchildren⟩, hlevel⟩

/-- The suffix grows operands of level `n` or more to such expressions. -/
def Suffix.Extends (n : Nat) (x : Suffix) : Prop := ∀ e : Expr, e.Binds n → (e.extend x).Binds n

namespace Expr.Binds

variable {n : Nat} {e : Expr}

theorem extend {xs : List Suffix} (h : e.Binds n) (hxs : ∀ x ∈ xs, x.Extends n) :
    (xs.foldl Expr.extend e).Binds n := by
  induction xs generalizing e with
  | nil => exact h
  | cons x xs ih =>
    exact ih (hxs x List.mem_cons_self e h) fun y hy => hxs y (List.mem_cons_of_mem _ hy)

theorem prefixed {operators : List Token} (h : e.Binds 12) :
    (operators.foldr .prefixed e).Binds 12 := by
  induction operators with
  | nil => exact h
  | cons t ts ih =>
    rw [List.foldr_cons]
    exact Node.binds_mk ih.2 ⟨ih.1, trivial⟩ (Nat.le_refl _)

end Expr.Binds

namespace Suffix

variable {n : Nat} {x : Suffix} {label : Label} {others : List Node}

/-- A suffix grows an operand to a node of level `n`, whose first child is the operand. -/
theorem extends_of_node (hnode : ∀ e : Expr, (e.extend x).node = .mk label (e.node :: others))
    (hothers : AllLeveled others)
    (hadmits : ∀ left : Node, n ≤ left.level → label.Admits (left :: others))
    (hlevel : n ≤ label.level) : x.Extends n := by
  rintro left ⟨hleft, hn⟩
  unfold Expr.Binds
  rw [hnode, Node.leveled_mk]
  exact ⟨⟨hadmits _ hn, hleft, hothers⟩, hlevel⟩

theorem extends_binary {operator : Token} {right : Expr} (hpos : 0 < operator.kind.level)
    (hname : operator.kind ≠ .identifier) (hright : right.Binds (operator.kind.level + 1)) :
    (Suffix.binary operator right).Extends operator.kind.level :=
  extends_of_node (fun _ => rfl) ⟨hright.1, trivial⟩
    (fun _ hleft => ⟨hpos, hname, hleft, hright.2⟩) (Nat.le_refl _)

theorem extends_infixCall {function : Identifier} {right : Expr}
    (hname : function.token.kind = .identifier) (hright : right.Binds 8) :
    (Suffix.infixCall function right).Extends 7 :=
  extends_of_node (fun _ => rfl) ⟨function.leveled _, hright.1, trivial⟩
    (fun _ hleft => ⟨hname, hleft, hright.2⟩) (Nat.le_refl _)

theorem extends_typeTest (operator : Token) (type : Option TypeExpr) :
    (Suffix.typeTest operator type).Extends 5 :=
  extends_of_node (fun _ => rfl) (allLeveled_typeNode? type) (fun _ hleft => hleft) (Nat.le_refl _)

theorem extends_cast (operator : Token) (type : Option TypeExpr) :
    (Suffix.cast operator type).Extends 11 :=
  extends_of_node (fun _ => rfl) (allLeveled_typeNode? type) (fun _ hleft => hleft) (Nat.le_refl _)

/-- A postfix form stands behind an operand of the highest level. -/
theorem extends_behind (hnode : ∀ e : Expr, (e.extend x).node = .mk label (e.node :: others))
    (hothers : AllLeveled others)
    (hlabel : label = .call ∨ label = .index ∨ label = .navigation ∨ label = .postfixed) :
    x.Extends 13 := by
  have htarget (left : Node) (h : 13 ≤ left.level) : left.level = 13 :=
    Nat.le_antisymm (Label.level_le _) h
  rcases hlabel with rfl | rfl | rfl | rfl <;>
    exact extends_of_node hnode hothers htarget (Nat.le_refl _)

end Suffix

namespace Parser

variable {α β : Type} {P : Productions} {n : Nat}

/-! ## Results of parsers -/

/-- **Whatever the parser finds is good**, in every mode and state. -/
def Always (p : Parser α) (good : α → Prop) : Prop :=
  ∀ ⦃mode : LineMode⦄ ⦃s : State⦄, Ensures p mode s fun a _ => good a

namespace Always

variable {p q : Parser α} {f : α → Parser β} {good : α → Prop} {more : β → Prop}

theorem pure {a : α} (h : good a) : Always (pure a) good := fun _ _ => h

theorem mono {good' : α → Prop} (h : Always p good) (himp : ∀ a, good a → good' a) :
    Always p good' :=
  fun _ _ => himp _ (@h _ _)

theorem and {mode : LineMode} {s : State} {Q : α → State → Prop} (h : Always p good)
    (hQ : Ensures p mode s Q) : Ensures p mode s fun a s' => good a ∧ Q a s' :=
  ⟨@h mode s, hQ⟩

theorem bind (hp : Always p good) (hf : ∀ a, good a → Always (f a) more) :
    Always (p >>= f) more := by
  intro mode s
  rw [ensures_bind]
  exact (@hp mode s).mono fun a s' ha => @hf a ha mode s'

/-- After a part whose result does not matter. -/
theorem after (hf : ∀ a, Always (f a) more) : Always (p >>= f) more := fun _ _ => @hf _ _ _

theorem ite {c : Prop} [Decidable c] (hp : Always p good) (hq : Always q good) :
    Always (if c then p else q) good := by
  split
  · exact hp
  · exact hq

theorem inBrackets (h : Always p good) : Always (inBrackets p) good := fun _ _ => @h _ _

theorem inBraces (h : Always p good) : Always (inBraces p) good := fun _ _ => @h _ _

/-- A part that is there. -/
theorem some (h : Always p good) : Always (do return some (← p)) fun found => ∀ a ∈ found, good a :=
  h.bind fun _ ha => .pure fun _ hb => Option.mem_some.mp hb ▸ ha

/-- A part that is absent. -/
theorem none : Always (Pure.pure none) fun found => ∀ a ∈ found, good a :=
  .pure fun _ h => absurd h (Option.not_mem_none _)

/-- A run of a loop that finds nothing. -/
theorem none_found {more : Bool} :
    Always (Pure.pure ⟨Option.none, more⟩) fun found : Step α => ∀ a ∈ found.item, good a :=
  .pure fun _ h => absurd h (Option.not_mem_none _)

end Always

section Loops

variable {step : Parser (Step α)} {item : Parser α} {good : α → Prop}

theorem collect_always (h : Always step fun found => ∀ a ∈ found.item, good a) :
    Always (collect step) fun as => ∀ a ∈ as, good a := by
  have hsteps (fuel : Nat) : Always (collectUpTo step fuel) fun as => ∀ a ∈ as, good a := by
    induction fuel with
    | zero => exact .after fun _ => .pure (List.forall_mem_nil _)
    | succ fuel ih =>
      refine h.bind fun found hfound => .ite (ih.bind fun as has => .pure fun a ha => ?_) (.pure ?_)
      · rcases List.mem_append.mp ha with ha | ha
        · exact hfound a (Option.mem_toList.mp ha)
        · exact has a ha
      · exact fun a ha => hfound a (Option.mem_toList.mp ha)
  exact .after fun s => hsteps _

theorem listStep_always (close : Mark) (h : Always item good) :
    Always (listStep close item) fun found => ∀ a ∈ found.item, good a := by
  refine .after fun _ => .ite .none_found (.after fun before => h.bind fun a ha => ?_)
  refine .after fun here => .ite .none_found (.after fun _ => .pure ?_)
  rintro _ ⟨⟩
  exact ha

theorem bracketed_always (close : Mark) (h : Always item good) :
    Always (bracketed close item) fun as => ∀ a ∈ as, good a :=
  .after fun _ => (collect_always (listStep_always close h)).inBrackets.bind fun _ has =>
    .after fun _ => .pure has

theorem progress_always {item : Parser (Option α)} (due : Expectation) (stop : Lexeme → Bool)
    (h : Always item fun found => ∀ a ∈ found, good a) :
    Always (progress item due stop) fun found => ∀ a ∈ found.item, good a := by
  refine .after fun before => h.bind fun found hfound => .after fun here => ?_
  exact .ite (.after fun _ => .pure hfound) (.pure hfound)

theorem braced_always {item : Parser (Option α)} (due : Expectation) (stop : Lexeme → Bool)
    (h : Always item fun found => ∀ a ∈ found, good a) :
    Always (braced item due stop) fun as => ∀ a ∈ as, good a := by
  have hstep : Always (bracedStep item due stop) fun found => ∀ a ∈ found.item, good a := by
    refine .after fun _ => .ite .none_found (.after fun _ => .ite .none_found ?_)
    exact progress_always due stop h
  exact (collect_always hstep).inBraces.bind fun _ has => .after fun _ => .pure has

end Loops

/-! ## Suffixes -/

/-- The productions find leveled phrases. -/
structure Productions.Leveled (P : Productions) : Prop where
  expression : Always P.expression fun e => e.node.Leveled
  block : Always P.block fun b => b.node.Leveled
  declaration : Always P.declaration fun d => ∀ a ∈ d, a.node.Leveled

/-- What the parser of suffixes finds extends operands of level `n`. -/
def AlwaysExtends (n : Nat) (suffix : Parser (Option Suffix)) : Prop :=
  Always suffix fun found => ∀ x ∈ found, x.Extends n

/-- An operand of level `n` grown by suffixes of that level. -/
theorem chain_always {m : Nat} {operand : Parser Expr} {suffix : Parser (Option Suffix)}
    (hle : n ≤ m) (ho : Always operand (Expr.Binds m)) (hx : AlwaysExtends n suffix) :
    Always (chain operand suffix) (Expr.Binds n) := by
  have hstep : Always (suffixStep suffix) fun found => ∀ x ∈ found.item, x.Extends n :=
    hx.bind fun found hfound => by cases found <;> exact .pure hfound
  refine ho.bind fun e he => (collect_always hstep).bind fun xs hxs => .pure ?_
  exact Expr.Binds.extend ⟨he.1, Nat.le_trans hle he.2⟩ hxs

/-- An operator of one level and a right operand of the next. -/
theorem operator_extends {operators : List Kind} {operand : Parser Expr}
    {rest : Parser (Option Suffix)} (hpos : 0 < n)
    (hops : ∀ k ∈ operators, k.level = n ∧ k ≠ .identifier)
    (ho : Always operand (Expr.Binds (n + 1))) (hrest : AlwaysExtends n rest) :
    AlwaysExtends n (do
      if ← continues operators then
        let operator ← advance
        return some (.binary operator (← operand))
      rest) := by
  intro mode s
  rw [ensures_bind, ensures_continues, ensures_ite]
  split
  · rename_i h
    rw [Bool.and_eq_true, List.contains_iff_mem] at h
    obtain ⟨hlevel, hname⟩ := hops _ h.1
    rw [ensures_bind, ensures_advance, ensures_bind]
    refine (@ho _ _).mono fun right _ hright => ?_
    rw [ensures_pure]
    rintro _ ⟨⟩
    subst hlevel
    exact Suffix.extends_binary hpos hname hright
  · exact @hrest _ _

theorem none_extends : AlwaysExtends n (pure none) := .none

theorem binarySuffix_always {operators : List Mark} {operand : Parser Expr} (hpos : 0 < n)
    (hops : ∀ m ∈ operators, (Kind.mark m).level = n) (ho : Always operand (Expr.Binds (n + 1))) :
    AlwaysExtends n (binarySuffix operators operand) := by
  refine operator_extends hpos (fun k hk => ?_) ho none_extends
  obtain ⟨m, hm, rfl⟩ := List.mem_map.mp hk
  exact ⟨hops m hm, nofun⟩

theorem testSuffix_always {operand : Parser Expr} (ho : Always operand (Expr.Binds 6)) :
    AlwaysExtends 5 (testSuffix P operand) := by
  refine .after fun _ => .ite ?_ ?_
  · refine .after fun operator => .after fun type => .pure ?_
    rintro _ ⟨⟩
    exact Suffix.extends_typeTest operator type
  · exact operator_extends (by decide) (by decide) ho none_extends

theorem infixSuffix_always {operand : Parser Expr} (ho : Always operand (Expr.Binds 8)) :
    AlwaysExtends 7 (infixSuffix operand) := by
  intro mode s
  unfold infixSuffix
  rw [ensures_bind, ensures_isAtSameLine, ensures_ite]
  split
  · rename_i h
    rw [Bool.and_eq_true, beq_iff_eq] at h
    rw [ensures_bind, ensures_advance, ensures_bind]
    refine (@ho _ _).mono fun right _ hright => ?_
    rw [ensures_pure]
    rintro _ ⟨⟩
    exact Suffix.extends_infixCall h.1 hright
  · exact @none_extends _ _ _

theorem castSuffix_always : AlwaysExtends 11 (castSuffix P) := by
  refine .after fun _ => .ite (.after fun operator => .after fun type => .pure ?_) none_extends
  rintro _ ⟨⟩
  exact Suffix.extends_cast operator type

theorem argument_always (hP : P.Leveled) : Always (argument P) fun a => a.node.Leveled :=
  .after fun name => hP.expression.bind fun value hvalue => .pure <| by
    simp [Argument.node, Label.Admits, hvalue]

theorem postfixSuffix_always (hP : P.Leveled) : AlwaysExtends 13 (postfixSuffix P) := by
  have harguments : Always (arguments P) _ := bracketed_always .rightParen (argument_always hP)
  have hindices : Always (indices P) _ := bracketed_always .rightSquare hP.expression
  refine .after fun _ => .ite (harguments.bind fun as has => .pure ?_) ?_
  · rintro _ ⟨⟩
    exact Suffix.extends_behind (fun _ => rfl)
      ⟨⟨trivial, (allLeveled_arguments _).mpr has⟩, trivial⟩ (.inl rfl)
  refine .after fun _ => .ite (hindices.bind fun es hes => .pure ?_) ?_
  · rintro _ ⟨⟩
    exact Suffix.extends_behind (fun _ => rfl) ((allLeveled_exprs _).mpr hes) (.inr (.inl rfl))
  refine .after fun _ => .after fun _ => .ite (.after fun operator => .after fun _ => .pure ?_) ?_
  · rintro _ ⟨⟩
    exact Suffix.extends_behind (fun _ => rfl) ⟨Identifier.leveled _ _, trivial⟩
      (.inr (.inr (.inl rfl)))
  refine .after fun _ => .ite (.after fun operator => .pure ?_) none_extends
  rintro _ ⟨⟩
  exact Suffix.extends_behind (fun _ => rfl) trivial (.inr (.inr (.inr rfl)))

/-! ## Primaries -/

theorem branch_always (hP : P.Leveled) : Always (branch P) fun b => b.node.Leveled :=
  .after fun _ => .ite (hP.block.bind fun _ h => .pure h) (hP.expression.bind fun _ h => .pure h)

theorem parenthesized_always (hP : P.Leveled) : Always (parenthesized P) fun e => e.node.Leveled :=
  hP.expression.inBrackets.bind fun _ h => .after fun _ => .pure h

theorem conditional_always (hP : P.Leveled) : Always (conditional P) (Expr.Binds 13) := by
  have hcondition : Always (condition? P) fun found => ∀ e ∈ found, e.node.Leveled :=
    .after fun _ => .ite (parenthesized_always hP).some .none
  have helse : Always (elseBranch? P) fun found => ∀ b ∈ found, b.node.Leveled :=
    .after fun _ => .after fun _ => .after fun _ =>
      .ite (.after fun _ => (branch_always hP).some) .none
  refine .after fun _ => hcondition.bind fun condition hc => ?_
  refine (branch_always hP).bind fun thenBranch ht => helse.bind fun elseBranch he => .pure ?_
  exact Node.binds_mk trivial (by
    simp [(allLeveled_expr? _).mpr hc, ht, (allLeveled_branch? _).mpr he]) (Nat.le_refl _)

theorem armCondition_always (hP : P.Leveled) :
    Always (armCondition P) fun found => ∀ c ∈ found, c.node.Leveled := by
  have htype : Always (do
      let operator ← advance
      return some (Condition.ofType operator (← P.type)))
      fun found => ∀ c ∈ found, c.node.Leveled :=
    .after fun operator => .after fun type => .pure fun c hc => by
      rw [← Option.mem_some.mp hc]
      exact ⟨trivial, allLeveled_typeNode? type⟩
  have hwithin : Always (do
      let operator ← advance
      return some (Condition.within operator (← P.expression)))
      fun found => ∀ c ∈ found, c.node.Leveled :=
    .after fun operator => hP.expression.bind fun value hvalue => .pure fun c hc => by
      rw [← Option.mem_some.mp hc]
      exact ⟨trivial, hvalue, trivial⟩
  refine .after fun k => ?_
  split
  · exact htype
  · exact htype
  · exact hwithin
  · exact hwithin
  · refine .after fun before => hP.expression.bind fun value hvalue => .after fun here => ?_
    refine .ite .none (.pure fun c hc => ?_)
    rw [← Option.mem_some.mp hc]
    exact hvalue

theorem matchArm_always (hP : P.Leveled) :
    Always (matchArm P) fun found => ∀ a ∈ found, a.node.Leveled := by
  have hbody (isElse : Bool) (conditions : List Condition)
      (hconditions : ∀ c ∈ conditions, c.node.Leveled) :
      Always (armBody P isElse conditions) fun a => a.node.Leveled := by
    refine .after fun arrow => .ite ((branch_always hP).bind fun body hbody => .pure ?_) (.pure ?_)
    · exact ⟨trivial, by simp [(allLeveled_conditions _).mpr hconditions, branchNode?, hbody]⟩
    · exact ⟨trivial, by simp [(allLeveled_conditions _).mpr hconditions, branchNode?]⟩
  have hstep : Always (conditionStep P) fun found => ∀ c ∈ found.item, c.node.Leveled := by
    refine (armCondition_always hP).bind fun found hfound => ?_
    cases found with
    | none => exact .pure hfound
    | some c => exact .after fun _ => .pure hfound
  refine .after fun isElse => .ite (hbody true [] (List.forall_mem_nil _)).some ?_
  refine (collect_always hstep).bind fun conditions hconditions => ?_
  exact .ite .none (hbody false conditions hconditions).some

theorem matching_always (hP : P.Leveled) : Always (matching P) (Expr.Binds 13) := by
  have hsubject : Always (subject? P) fun found => ∀ e ∈ found, e.node.Leveled :=
    .after fun _ => .ite (parenthesized_always hP).some .none
  have harms : Always (matchArms P) fun arms => ∀ a ∈ arms, a.node.Leveled :=
    braced_always _ _ (matchArm_always hP)
  refine .after fun _ => hsubject.bind fun subject hs => .after fun _ => .ite ?_ (.pure ?_)
  · refine harms.bind fun arms ha => .pure ?_
    exact Node.binds_mk trivial (by
      simp [(allLeveled_expr? _).mpr hs, (allLeveled_arms _).mpr ha]) (Nat.le_refl _)
  · exact Node.binds_mk trivial (by simp [(allLeveled_expr? _).mpr hs, armNodes]) (Nat.le_refl _)

theorem jump_always (hP : P.Leveled) : Always (jump P) (Expr.Binds 13) := by
  have hjump (keyword : Token) (value : Option Expr) (h : ∀ e ∈ value, e.node.Leveled) :
      (Expr.jump keyword value).Binds 13 :=
    Node.binds_mk trivial ((allLeveled_expr? value).mpr h) (Nat.le_refl _)
  refine .after fun keyword => .after fun _ => .after fun _ => .ite ?_ (.pure (hjump _ none nofun))
  exact hP.expression.some.bind fun value h => .pure (hjump keyword value h)

theorem primary_always (hP : P.Leveled) : Always (primary P) (Expr.Binds 13) := by
  refine .after fun k => ?_
  split
  · exact .after fun _ => .pure (Node.binds_mk trivial trivial (Nat.le_refl _))
  · exact .after fun _ => .pure (Node.binds_mk trivial trivial (Nat.le_refl _))
  · exact .after fun _ => .pure (Node.binds_mk trivial trivial (Nat.le_refl _))
  · refine .after fun first => .after fun rest => .pure ?_
    exact Node.binds_mk trivial ⟨DottedName.leveled _, trivial⟩ (Nat.le_refl _)
  · refine .after fun _ => (parenthesized_always hP).bind fun inner h => .pure ?_
    exact Node.binds_mk trivial ⟨h, trivial⟩ (Nat.le_refl _)
  · exact conditional_always hP
  · exact matching_always hP
  · exact jump_always hP
  · exact jump_always hP
  · exact jump_always hP
  · refine .after fun operator => .after fun target => .pure ?_
    exact Node.binds_mk trivial (allLeveled_nameNode? _ target) (Nat.le_refl _)
  · exact .after fun _ => .after fun _ =>
      .pure (Node.binds_mk trivial trivial (Nat.le_refl _))

/-! ## Expressions -/

theorem prefixed_always (hP : P.Leveled) : Always (prefixed P) (Expr.Binds 12) := by
  have hpostfixed : Always (postfixed P) (Expr.Binds 13) :=
    chain_always (Nat.le_refl _) (primary_always hP) (postfixSuffix_always hP)
  refine .after fun operators => hpostfixed.bind fun e he => .pure ?_
  exact Expr.Binds.prefixed ⟨he.1, Nat.le_trans (by decide) he.2⟩

/-- **The suffixes of each level** extend operands of that level, over right operands of the next.
The first level in the list is level 1. -/
theorem levels_always {i : Nat} (hi : i < (levels P).length) {operand : Parser Expr}
    (ho : Always operand (Expr.Binds (i + 2))) :
    AlwaysExtends (i + 1) ((levels P)[i] operand) := by
  match i, hi with
  | 0, _ | 1, _ | 2, _ | 3, _ | 5, _ | 7, _ | 8, _ | 9, _ =>
    exact binarySuffix_always (by decide) (by decide) ho
  | 4, _ => exact testSuffix_always ho
  | 6, _ => exact infixSuffix_always ho
  | 10, _ => exact castSuffix_always

/-- The parser of the levels from number `i` on, each over the next. -/
def fromLevel (P : Productions) (i : Nat) : Parser Expr :=
  ((levels P).drop i).foldr (fun suffix operand => chain operand (suffix operand)) (prefixed P)

/-- Each level is a chain over the next. -/
theorem fromLevel_eq {i : Nat} (hi : i < (levels P).length) :
    fromLevel P i = chain (fromLevel P (i + 1)) ((levels P)[i] (fromLevel P (i + 1))) := by
  unfold fromLevel
  rw [List.drop_eq_getElem_cons hi, List.foldr_cons]

theorem fromLevel_always (hP : P.Leveled) (i : Nat) (hi : i ≤ 11) :
    Always (fromLevel P i) (Expr.Binds (i + 1)) := by
  obtain ⟨k, hk⟩ := Nat.exists_eq_add_of_le hi
  induction k generalizing i with
  | zero =>
    obtain rfl : i = 11 := hk.symm
    exact prefixed_always hP
  | succ k ih =>
    have hlt : i < (levels P).length := by
      show i < 11
      omega
    have ho := ih (i + 1) (by omega) (by omega)
    rw [fromLevel_eq hlt]
    exact chain_always (Nat.le_succ _) ho (levels_always hlt ho)

/-- **Expressions are leveled.** -/
theorem expression_always (hP : P.Leveled) : Always (expression P) fun e => e.node.Leveled :=
  (fromLevel_always hP 0 (Nat.zero_le _)).mono fun _ h => h.1

end Parser

end Yurin
