import Yurin.Parser.Expression
import Yurin.Proofs.Parser.Types

/-!
# Expressions are read soundly

`expression_sound`: over productions that are sound, the parser of expressions is sound with one
more token to go. A suffix is sound when it consumes a token wherever it finds one (`SoundSuffix`),
which is what makes the loop of `chain` end.
-/

namespace Yurin

/-- The leaves of an expression. -/
abbrev exprLeaves (e : Expr) : List Leaf := leaves [e.node]

/-- The leaves that a suffix adds to an expression. -/
def Suffix.leaves : Suffix → List Leaf
  | .binary _ right => exprLeaves right
  | .typeTest _ type | .cast _ type => Yurin.leaves (typeNode? type)
  | .infixCall function right => .name function.token :: exprLeaves right
  | .call arguments => Yurin.leaves (argumentNodes arguments)
  | .index indices => Yurin.leaves (exprNodes indices)
  | .navigation _ member => [.name member.token]
  | .postfixed _ => []

theorem exprLeaves_extend (e : Expr) (s : Suffix) :
    exprLeaves (e.extend s) = exprLeaves e ++ s.leaves := by
  unfold exprLeaves
  cases s with
  | typeTest | cast | index =>
    rw [Expr.extend, Expr.node, leaves_cons, leaves_cons_node e.node, leaves_nil, List.append_nil]
    rfl
  | _ => simp [Expr.extend, Suffix.leaves, Expr.node, Label.leaf?]

theorem exprLeaves_foldl (suffixes : List Suffix) (e : Expr) :
    exprLeaves (suffixes.foldl Expr.extend e) = exprLeaves e ++ suffixes.flatMap Suffix.leaves := by
  induction suffixes generalizing e with
  | nil => simp
  | cons s rest ih => rw [List.foldl_cons, ih, exprLeaves_extend, List.flatMap_cons,
      List.append_assoc]

theorem exprLeaves_prefixed (operators : List Token) (e : Expr) :
    exprLeaves (operators.foldr .prefixed e) = exprLeaves e := by
  induction operators with
  | nil => rfl
  | cons t rest ih =>
    rw [List.foldr_cons, ← ih]
    simp [exprLeaves, Expr.node, Label.leaf?]

namespace Parser

/-- The productions are sound with less than `n` tokens to go. -/
structure Productions.Sound (n : Nat) (P : Productions) : Prop where
  type : Parser.Sound n P.type typeLeaves
  expression : Parser.Sound n P.expression exprLeaves
  block : SoundFrom n (· = .mark .leftBrace) P.block fun b => leaves [b.node]
  declaration : Parser.Sound n P.declaration fun d => d.toList.flatMap fun d => leaves [d.node]

/-- A suffix is read soundly, and where there is one it consumes a token. -/
def SoundSuffix (n : Nat) (suffix : Parser (Option Suffix)) : Prop :=
  ∀ ⦃mode : LineMode⦄ ⦃s : State⦄, Ready n s → Ensures suffix mode s fun found s' =>
    Reads s (found.toList.flatMap Suffix.leaves) s' ∧ (found.isSome → s.consumed < s'.consumed)

variable {n : Nat} {P : Productions} {mode : LineMode} {s : State}

/-! ## Chains of suffixes -/

theorem suffixStep_sound {suffix : Parser (Option Suffix)} (h : SoundSuffix n suffix) :
    SoundStep n (suffixStep suffix) Suffix.leaves fun _ => True := by
  intro mode s hs
  unfold suffixStep
  rw [ensures_bind]
  refine (h hs).mono fun found s₁ ⟨hr, hlt⟩ => ?_
  cases found with
  | none => exact SoundStep.stop_of_reads hr
  | some suffix => exact ⟨hr, fun _ => hlt rfl, nofun⟩

theorem chain_sound {operand : Parser Expr} {suffix : Parser (Option Suffix)}
    (ho : Sound n operand exprLeaves) (hx : SoundSuffix n suffix) :
    Sound n (chain operand suffix) exprLeaves := by
  intro mode s hs
  unfold chain
  refine ho.then (.refl s) hs fun first s₁ hr hs₁ => ?_
  refine (collect_sound (suffixStep_sound hx)).then hr hs₁ fun suffixes s₂ hr _ => ?_
  rw [ensures_pure, exprLeaves_foldl]
  simpa using hr

/-- Where no suffix begins. -/
theorem SoundSuffix.none (s : State) :
    Reads s ((Option.none : Option Suffix).toList.flatMap Suffix.leaves) s ∧
      ((Option.none : Option Suffix).isSome → s.consumed < s.consumed) :=
  ⟨.refl s, nofun⟩

/-- A suffix that is an operator, followed by what a sound parser reads. -/
theorem operator_suffix {α : Type} {p : Parser α} {view : α → List Leaf} (hp : Sound n p view)
    (make : Token → α → Suffix) (hm : ∀ t a, (make t a).leaves = view a) (hs : Ready (n + 1) s)
    (hk : Kind.Plain s.current.token.kind) :
    Ensures (do let operator ← advance; return some (make operator (← p))) mode s fun found s' =>
      Reads s (found.toList.flatMap Suffix.leaves) s' ∧
        (found.isSome → s.consumed < s'.consumed) := by
  refine advance_plain_then (.refl s) hs hk fun s₁ hr hs₁ hlt _ => ?_
  rw [ensures_bind]
  refine (hp hs₁).mono fun a s₂ hr₂ => ?_
  rw [ensures_pure]
  refine ⟨?_, fun _ => Nat.lt_of_lt_of_le hlt hr₂.consumed_le⟩
  simpa [hm] using hr.trans hr₂

@[simp] theorem ensures_continues {operators : List Kind} {Q : Bool → State → Prop} :
    Ensures (continues operators) mode s Q ↔
      Q (operators.contains s.current.token.kind &&
        (!(mode == .significant && s.current.afterBreak) || joinsLines s.current.token.kind)) s :=
  Iff.rfl

theorem binarySuffix_sound (operators : List Mark) {operand : Parser Expr}
    (h : Sound n operand exprLeaves) : SoundSuffix n (binarySuffix operators operand) := by
  intro mode s hs
  unfold binarySuffix
  rw [ensures_bind, ensures_continues, ensures_ite]
  split
  · rename_i hk
    rw [Bool.and_eq_true, List.contains_iff_mem, List.mem_map] at hk
    obtain ⟨⟨m, -, hm⟩, -⟩ := hk
    exact operator_suffix h .binary (fun _ _ => rfl) (hs.mono (Nat.le_succ n))
      (hm ▸ Kind.plain_mark m)
  · exact SoundSuffix.none s

/-- A word that is one of two keywords is no name. -/
theorem Kind.plain_of_contains {k : Kind} (words : List Keyword)
    (h : (words.map Kind.keyword).contains k = true) : Kind.Plain k := by
  rw [List.contains_iff_mem, List.mem_map] at h
  obtain ⟨w, -, hw⟩ := h
  exact hw ▸ Kind.plain_keyword w

theorem testSuffix_sound (hP : P.Sound n) {operand : Parser Expr}
    (h : Sound (n + 1) operand exprLeaves) : SoundSuffix (n + 1) (testSuffix P operand) := by
  intro mode s hs
  unfold testSuffix
  rw [ensures_bind, ensures_continues, ensures_ite]
  split
  · rename_i hk
    rw [Bool.and_eq_true] at hk
    exact operator_suffix hP.type .typeTest (fun _ _ => rfl) hs
      (Kind.plain_of_contains [.is, .notIs] hk.1)
  · rw [ensures_bind, ensures_continues, ensures_ite]
    split
    · rename_i hk
      rw [Bool.and_eq_true] at hk
      exact operator_suffix h .binary (fun _ _ => rfl) (hs.mono (Nat.le_succ _))
        (Kind.plain_of_contains [.in_, .notIn] hk.1)
    · exact SoundSuffix.none s

theorem castSuffix_sound (hP : P.Sound n) : SoundSuffix (n + 1) (castSuffix P) := by
  intro mode s hs
  unfold castSuffix
  rw [ensures_bind, ensures_continues, ensures_ite]
  split
  · rename_i hk
    rw [Bool.and_eq_true] at hk
    exact operator_suffix hP.type .cast (fun _ _ => rfl) hs
      (Kind.plain_of_contains [.as, .safeAs] hk.1)
  · exact SoundSuffix.none s

theorem infixSuffix_sound {operand : Parser Expr} (h : Sound n operand exprLeaves) :
    SoundSuffix n (infixSuffix operand) := by
  intro mode s hs
  unfold infixSuffix
  rw [ensures_bind, ensures_isAtSameLine, ensures_ite]
  split
  · rename_i hk
    simp only [Bool.and_eq_true, beq_iff_eq] at hk
    refine advance_name_then (.refl s) hs hk.1 fun t s₁ hr hs₁ hlt _ => ?_
    rw [ensures_bind]
    refine (h hs₁).mono fun right s₂ hr₂ => ?_
    rw [ensures_pure]
    refine ⟨?_, fun _ => Nat.lt_of_lt_of_le hlt hr₂.consumed_le⟩
    simpa [Suffix.leaves] using hr.trans hr₂
  · exact SoundSuffix.none s

/-! ## Arguments and postfix forms -/

theorem argumentName?_sound : Sound n argumentName? fun name => nameLeaves name.toList := by
  intro mode s hs
  unfold argumentName?
  rw [ensures_bind, ensures_isAt, ensures_bind, ensures_nextKind, ensures_ite]
  split
  · rename_i hk
    simp only [Bool.and_eq_true, beq_iff_eq] at hk
    refine advance_name_then (.refl s) hs hk.1 fun t s₁ hr hs₁ _ hcur => ?_
    exact advance_plain_then hr (hs₁.mono (Nat.le_succ n)) (hcur ▸ hk.2 ▸ Kind.plain_mark .eq)
      fun s₂ hr _ _ _ => hr
  · exact .refl s

theorem argument_sound (hP : P.Sound n) : Sound n (argument P) fun a => leaves [a.node] := by
  intro mode s hs
  unfold argument
  refine argumentName?_sound.then (.refl s) hs fun name s₁ hr hs₁ => ?_
  refine hP.expression.then hr hs₁ fun value s₂ hr _ => ?_
  rw [ensures_pure]
  simpa [Argument.node, Label.leaf?] using hr

theorem arguments_sound (hP : P.Sound n) :
    SoundFrom (n + 1) (· = .mark .leftParen) (arguments P) fun as => leaves (argumentNodes as) := by
  simp only [argumentNodes_eq, leaves_map]
  exact bracketed_sound .leftParen .rightParen (argument_sound hP)

theorem indices_sound (hP : P.Sound n) :
    SoundFrom (n + 1) (· = .mark .leftSquare) (indices P) fun is => leaves (exprNodes is) := by
  simp only [exprNodes_eq, leaves_map]
  exact bracketed_sound .leftSquare .rightSquare hP.expression

/-- The kinds `.` and `?.` are no names. -/
theorem Kind.plain_of_contains_mark {k : Kind} (marks : List Mark)
    (h : (marks.map Kind.mark).contains k = true) : Kind.Plain k := by
  rw [List.contains_iff_mem, List.mem_map] at h
  obtain ⟨m, -, hm⟩ := h
  exact hm ▸ Kind.plain_mark m

theorem postfixSuffix_sound (hP : P.Sound n) : SoundSuffix (n + 1) (postfixSuffix P) := by
  intro mode s hs
  unfold postfixSuffix
  rw [ensures_bind, ensures_isAtSameLine, ensures_ite]
  split
  · rename_i hk
    simp only [Bool.and_eq_true, beq_iff_eq] at hk
    rw [ensures_bind]
    refine (arguments_sound hP hs hk.1).mono fun as s₁ ⟨hr, hlt⟩ => ?_
    rw [ensures_pure]
    exact ⟨by simpa [Suffix.leaves] using hr, fun _ => hlt⟩
  rw [ensures_bind, ensures_isAtSameLine, ensures_ite]
  split
  · rename_i hk
    simp only [Bool.and_eq_true, beq_iff_eq] at hk
    rw [ensures_bind]
    refine (indices_sound hP hs hk.1).mono fun is s₁ ⟨hr, hlt⟩ => ?_
    rw [ensures_pure]
    exact ⟨by simpa [Suffix.leaves] using hr, fun _ => hlt⟩
  rw [ensures_bind, ensures_isAtAny, ensures_bind, ensures_nextKind, ensures_ite]
  split
  · rename_i hk
    rw [Bool.and_eq_true, beq_iff_eq] at hk
    refine advance_plain_then (.refl s) hs
      (Kind.plain_of_contains_mark [.dot, .safeDot] hk.1) fun s₁ hr hs₁ hlt hcur => ?_
    refine advance_name_then hr hs₁ (hcur ▸ hk.2) fun t s₂ hr _ hlt₂ _ => ?_
    exact ⟨hr, fun _ => Nat.lt_trans hlt hlt₂⟩
  rw [ensures_bind, ensures_isAtSameLine, ensures_ite]
  split
  · rename_i hk
    simp only [Bool.and_eq_true, beq_iff_eq] at hk
    exact advance_plain_then (.refl s) hs (hk.1 ▸ Kind.plain_mark _)
      fun s₁ hr _ hlt _ => ⟨hr, fun _ => hlt⟩
  · exact SoundSuffix.none s

/-! ## Conditionals and matches -/

theorem branch_sound (hP : P.Sound n) : Sound n (branch P) fun b => leaves [b.node] := by
  refine hP.block.whenAt (fun b => by rw [Branch.node]) fun mode s hs => ?_
  refine hP.expression.then (.refl s) hs fun e s₁ hr _ => ?_
  rw [ensures_pure]
  simpa only [Branch.node, List.nil_append] using hr

theorem parenthesized_sound (hP : P.Sound n) : Sound n (parenthesized P) exprLeaves := by
  intro mode s hs
  unfold parenthesized
  refine hP.expression.inBrackets.then (.refl s) hs fun e s₁ hr hs₁ => ?_
  exact (expectUnit_sound (Kind.plain_mark .rightParen)).then hr hs₁
    fun _ s₂ hr _ => by simpa using hr

theorem condition?_sound (hP : P.Sound n) :
    Sound n (condition? P) fun c => leaves (exprNode? c) := by
  intro mode s hs
  unfold condition?
  refine (expect_sound (Kind.plain_mark .leftParen)).then (.refl s) hs fun found s₁ hr hs₁ => ?_
  rw [ensures_ite]
  split
  · exact (parenthesized_sound hP).then hr hs₁ fun e s₂ hr _ => hr
  · exact hr

theorem elseBranch?_sound (hP : P.Sound n) :
    Sound n (elseBranch? P) fun b => leaves (branchNode? b) := by
  intro mode s hs
  unfold elseBranch?
  rw [ensures_bind, ensures_isAt, ensures_bind, ensures_atBreak, ensures_bind, ensures_nextKind,
    ensures_ite]
  split
  · rename_i hk
    rw [Bool.and_eq_true, beq_iff_eq] at hk
    refine advance_plain_then (.refl s) (hs.mono (Nat.le_succ n)) (hk.1 ▸ Kind.plain_keyword _)
      fun s₁ hr hs₁ _ _ => ?_
    exact (branch_sound hP).then hr hs₁ fun b s₂ hr _ => hr
  · exact .refl s

theorem conditional_sound (hP : P.Sound n) :
    SoundFrom (n + 1) (· = .keyword .if_) (conditional P) exprLeaves := by
  refine .of_advance (fun _ hk => hk ▸ Kind.plain_keyword _) fun _ _ mode s hs => ?_
  refine (condition?_sound hP).then (.refl s) hs fun c s₁ hr hs₁ => ?_
  refine (branch_sound hP).then hr hs₁ fun b s₂ hr hs₂ => ?_
  refine (elseBranch?_sound hP).then hr hs₂ fun e s₃ hr _ => ?_
  rw [ensures_pure]
  simpa [exprLeaves, Expr.node, Label.leaf?, leaves_cons_node b.node (branchNode? e)] using hr

theorem armCondition_sound (hP : P.Sound n) :
    Sound n (armCondition P) fun c => c.toList.flatMap fun c => leaves [c.node] := by
  intro mode s hs
  unfold armCondition
  have operand {α : Type} {p : Parser α} {out : α → List Leaf} (hp : Sound n p out)
      {make : Token → α → Condition} (hmake : ∀ t a, leaves [(make t a).node] = out a)
      {w : Keyword} (hk : s.current.token.kind = .keyword w) :
      Ensures (do let operator ← advance; return some (make operator (← p))) mode s
        fun c s' => Reads s (c.toList.flatMap fun c => leaves [c.node]) s' := by
    refine advance_plain_then (.refl s) (hs.mono (Nat.le_succ n)) (hk ▸ Kind.plain_keyword w)
      fun s₁ hr hs₁ t _ => ?_
    refine hp.then hr hs₁ fun a s₂ hr _ => ?_
    rw [ensures_pure]
    simpa [hmake] using hr
  rw [ensures_bind, ensures_kind]
  split
  · exact operand hP.type (fun _ _ => by simp [Condition.node, Label.leaf?]) ‹_›
  · exact operand hP.type (fun _ _ => by simp [Condition.node, Label.leaf?]) ‹_›
  · exact operand hP.expression (fun _ _ => by simp [Condition.node, Label.leaf?, exprLeaves]) ‹_›
  · exact operand hP.expression (fun _ _ => by simp [Condition.node, Label.leaf?, exprLeaves]) ‹_›
  · rw [ensures_bind, ensures_consumed, ensures_bind]
    refine (hP.expression hs).mono fun e s₁ hr => ?_
    rw [ensures_bind, ensures_consumed, ensures_ite]
    split
    · rename_i hc
      rw [(hr.unmoved (by simpa using hc)).1] at hr
      exact hr
    · rw [ensures_pure]
      simpa [Condition.node] using hr

theorem conditionStep_sound (hP : P.Sound n) :
    SoundStep n (conditionStep P) (fun c => leaves [c.node]) fun _ => True := by
  intro mode s hs
  unfold conditionStep
  refine (armCondition_sound hP).then (.refl s) hs fun found s₁ hr hs₁ => ?_
  cases found with
  | none => exact SoundStep.stop_of_reads hr
  | some c => exact comma_step (by simpa using hr) hs₁

/-- The leaves of a match arm. -/
theorem leaves_arm (isElse : Bool) (conditions : List Condition) (body : Option Branch) :
    leaves [(MatchArm.mk isElse conditions body).node] =
      leaves (conditionNodes conditions) ++ leaves (branchNode? body) := by
  simp [MatchArm.node, Label.leaf?]

theorem armBody_sound (hP : P.Sound n) (isElse : Bool) (conditions : List Condition) {s₀ : State}
    (hr : Reads s₀ (leaves (conditionNodes conditions)) s) (hs : Ready n s) :
    Ensures (armBody P isElse conditions) mode s fun a s' => Reads s₀ (leaves [a.node]) s' := by
  unfold armBody
  refine (expect_sound (Kind.plain_mark .arrow)).then hr hs fun found s₁ hr hs₁ => ?_
  rw [ensures_ite]
  split
  · refine (branch_sound hP).then hr hs₁ fun b s₂ hr _ => ?_
    rw [ensures_pure, leaves_arm]
    simpa [branchNode?] using hr
  · rw [ensures_pure, leaves_arm]
    simpa [branchNode?] using hr

theorem matchArm_sound (hP : P.Sound n) :
    Sound n (matchArm P) fun a => a.toList.flatMap fun a => leaves [a.node] := by
  intro mode s hs
  unfold matchArm
  refine (accept_sound (Kind.plain_keyword .else_)).then (.refl s) hs fun isElse s₁ hr hs₁ => ?_
  rw [ensures_ite]
  split
  · rw [ensures_bind]
    have hr : Reads s (leaves (conditionNodes [])) s₁ := by simpa [conditionNodes] using hr
    refine (armBody_sound hP true [] hr hs₁).mono fun a s₂ hr => ?_
    rw [ensures_pure]
    simpa using hr
  · refine (collect_sound (conditionStep_sound hP)).then hr hs₁ fun conditions s₂ hr hs₂ => ?_
    rw [ensures_ite]
    split
    · rename_i hc
      rw [List.isEmpty_iff.mp hc] at hr
      exact hr
    · rw [ensures_bind]
      have hr : Reads s (leaves (conditionNodes conditions)) s₂ := by
        simpa [conditionNodes_eq, leaves_map] using hr
      refine (armBody_sound hP false conditions hr hs₂).mono fun a s₃ hr => ?_
      rw [ensures_pure]
      simpa using hr

theorem matchArms_sound (hP : P.Sound n) :
    Sound n (matchArms P) fun arms => leaves (armNodes arms) := by
  simp only [armNodes_eq, leaves_map]
  exact braced_sound .matchArm endsArm (matchArm_sound hP)

theorem subject?_sound (hP : P.Sound n) :
    Sound n (subject? P) fun e => leaves (exprNode? e) := by
  intro mode s hs
  unfold subject?
  refine (accept_sound (Kind.plain_mark .leftParen)).then (.refl s) hs fun found s₁ hr hs₁ => ?_
  rw [ensures_ite]
  split
  · exact (parenthesized_sound hP).then hr hs₁ fun e s₂ hr _ => hr
  · exact hr

theorem exprLeaves_matchOn (subject : Option Expr) (arms : List MatchArm) :
    exprLeaves (.matchOn subject arms) = leaves (exprNode? subject) ++ leaves (armNodes arms) := by
  simp [exprLeaves, Expr.node, Label.leaf?]

theorem matching_sound (hP : P.Sound n) :
    SoundFrom (n + 1) (· = .keyword .match_) (matching P) exprLeaves := by
  refine .of_advance (fun _ hk => hk ▸ Kind.plain_keyword _) fun _ _ mode s hs => ?_
  refine (subject?_sound hP).then (.refl s) hs fun subject s₁ hr hs₁ => ?_
  refine (expect_sound (Kind.plain_mark .leftBrace)).then hr hs₁ fun found s₂ hr hs₂ => ?_
  rw [ensures_ite]
  split
  · refine (matchArms_sound hP).then hr hs₂ fun arms s₃ hr _ => ?_
    rw [ensures_pure, exprLeaves_matchOn]
    simpa using hr
  · rw [ensures_pure, exprLeaves_matchOn]
    simpa [armNodes] using hr

/-! ## Primaries and operators -/

theorem jump_sound (hP : P.Sound n) :
    SoundFrom (n + 1) (∃ w, · = .keyword w) (jump P) exprLeaves := by
  refine .of_advance (fun _ ⟨w, hk⟩ => hk ▸ Kind.plain_keyword w) fun t _ mode s hs => ?_
  rw [ensures_bind, ensures_atBreak, ensures_bind, ensures_kind, ensures_ite]
  split
  · refine hP.expression.then (.refl s) hs fun e s₁ hr _ => ?_
    rw [ensures_pure]
    simpa [exprLeaves, Expr.node, exprNode?, Label.leaf?] using hr
  · exact .refl s

theorem primary_sound (hP : P.Sound n) : Sound (n + 1) (primary P) exprLeaves := by
  intro mode s hs
  unfold primary
  have single {make : Token → Expr} (hm : ∀ t, exprLeaves (make t) = [])
      (hk : Kind.Plain s.current.token.kind) :
      Ensures (do return make (← advance)) mode s fun e s' => Reads s (exprLeaves e) s' :=
    advance_plain_then (.refl s) hs hk fun s₁ hr _ _ _ => by rw [ensures_pure, hm]; exact hr
  rw [ensures_bind, ensures_kind]
  split
  · rename_i hk
    exact single (fun _ => rfl) (hk ▸ ⟨nofun, nofun⟩)
  · rename_i hk
    exact single (fun _ => rfl) (hk ▸ ⟨nofun, nofun⟩)
  · rename_i hk
    exact single (fun _ => rfl) (hk ▸ Kind.plain_keyword _)
  · rename_i hk
    refine advance_name_then (.refl s) hs hk fun t s₁ hr hs₁ _ _ => ?_
    refine dottedRest_sound.then hr hs₁ fun rest s₂ hr _ => ?_
    rw [ensures_pure]
    simpa [exprLeaves, Expr.node, Label.leaf?] using hr
  · rename_i hk
    refine advance_plain_then (.refl s) hs (hk ▸ Kind.plain_mark _) fun s₁ hr hs₁ _ _ => ?_
    refine (parenthesized_sound hP).then hr hs₁ fun e s₂ hr _ => ?_
    rw [ensures_pure]
    simpa [exprLeaves, Expr.node, Label.leaf?] using hr
  · exact (conditional_sound hP hs ‹_›).mono fun _ _ h => h.1
  · exact (matching_sound hP hs ‹_›).mono fun _ _ h => h.1
  · exact (jump_sound hP hs ⟨_, ‹_›⟩).mono fun _ _ h => h.1
  · exact (jump_sound hP hs ⟨_, ‹_›⟩).mono fun _ _ h => h.1
  · exact (jump_sound hP hs ⟨_, ‹_›⟩).mono fun _ _ h => h.1
  · rename_i hk
    refine advance_plain_then (.refl s) hs (hk ▸ Kind.plain_mark _) fun s₁ hr hs₁ _ _ => ?_
    refine expectIdentifier_sound.then hr hs₁ fun name s₂ hr _ => ?_
    rw [ensures_pure]
    simpa [exprLeaves, Expr.node, Label.leaf?] using hr
  · exact (complain_sound (n := n + 1) _).then (.refl s) hs fun _ s₁ hr _ => hr

theorem prefixStep_sound : SoundStep n prefixStep (fun _ => []) fun _ => True := by
  intro mode s hs
  unfold prefixStep
  rw [ensures_bind, ensures_isAtAny, ensures_ite]
  split
  · rename_i hk
    exact advance_plain_then (.refl s) (hs.mono (Nat.le_succ n))
      (Kind.plain_of_contains_mark [.minus, .plus, .not] hk)
      fun s₁ hr _ hlt _ => ⟨hr, fun _ => hlt, nofun⟩
  · exact SoundStep.stop_of_reads (.refl s)

theorem prefixed_sound (hP : P.Sound n) : Sound (n + 1) (prefixed P) exprLeaves := by
  intro mode s hs
  unfold prefixed
  refine (collect_sound prefixStep_sound).then (.refl s) hs fun operators s₁ hr hs₁ => ?_
  refine (chain_sound (primary_sound hP) (postfixSuffix_sound hP)).then hr hs₁ fun e s₂ hr _ => ?_
  rw [List.flatMap_eq_nil_iff.mpr fun _ _ => rfl] at hr
  rw [ensures_pure, exprLeaves_prefixed]
  exact hr

/-- Every level of precedence is sound over a sound parser of its operands. -/
theorem levels_sound (hP : P.Sound n) {suffix : Parser Expr → Parser (Option Suffix)}
    (h : suffix ∈ levels P) {operand : Parser Expr} (ho : Sound (n + 1) operand exprLeaves) :
    SoundSuffix (n + 1) (suffix operand) := by
  simp only [levels, List.mem_cons, List.not_mem_nil, or_false] at h
  rcases h with rfl | rfl | rfl | rfl | rfl | rfl | rfl | rfl | rfl | rfl | rfl
  case inr.inr.inr.inr.inl => exact testSuffix_sound hP ho
  case inr.inr.inr.inr.inr.inr.inl => exact infixSuffix_sound ho
  case inr.inr.inr.inr.inr.inr.inr.inr.inr.inr => exact castSuffix_sound hP
  all_goals exact binarySuffix_sound _ ho

/-- **Expressions are read soundly**, with one more token to go than the phrases inside them. -/
theorem expression_sound (hP : P.Sound n) : Sound (n + 1) (expression P) exprLeaves := by
  have hfold (suffixes : List (Parser Expr → Parser (Option Suffix)))
      (h : ∀ suffix ∈ suffixes, suffix ∈ levels P) :
      Sound (n + 1) (suffixes.foldr (fun suffix operand => chain operand (suffix operand))
        (prefixed P)) exprLeaves := by
    induction suffixes with
    | nil => exact prefixed_sound hP
    | cons suffix rest ih =>
      have ho := ih fun x hx => h x (List.mem_cons_of_mem _ hx)
      exact chain_sound ho (levels_sound hP (h suffix List.mem_cons_self) ho)
  exact hfold (levels P) fun _ h => h

end Parser

end Yurin
