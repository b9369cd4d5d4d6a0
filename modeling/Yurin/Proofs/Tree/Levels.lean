import Yurin.Proofs.Tree.Leaves

/-!
# Levels of precedence

Every node has a level: that of its operator, from 1 for the loosest to 12 for a prefix operator,
and 13 for postfix forms and for everything without an operator in front or in the middle. A tree is
`Leveled` when every operand in it has at least the level that its operator asks for. On the right
of an operator that is one level more, so operators of one level associate to the left.

`Expr.InOrder` reads a tree of literals and operators from left to right. A leveled tree is the only
one with its reading (`Expr.InOrder.unique`): its root is the last of the loosest operators.
-/

namespace Yurin

/-- The level of an operator between two expressions, the loosest first. An identifier between two
expressions is the function of an infix call. What does not join two expressions has level 0. -/
def Kind.level : Kind → Nat
  | .mark .orOr => 1
  | .mark .andAnd => 2
  | .mark .eqEq | .mark .notEq => 3
  | .mark .leftAngle | .mark .rightAngle | .mark .lessEq | .mark .greaterEq => 4
  | .keyword .in_ | .keyword .notIn => 5
  | .mark .elvis => 6
  | .identifier => 7
  | .mark .range | .mark .rangeEq => 8
  | .mark .plus | .mark .minus | .mark .or => 9
  | .mark .multiply | .mark .divide | .mark .modulo | .mark .and => 10
  | _ => 0

theorem Kind.level_le (k : Kind) : k.level ≤ 10 := by
  unfold Kind.level
  split <;> omega

/-- The level of a node. -/
def Label.level : Label → Nat
  | .binary operator => operator.kind.level
  | .typeTest _ => 5
  | .infixCall => 7
  | .cast _ => 11
  | .prefixed _ => 12
  | _ => 13

/-- The level of a node. -/
def Node.level (n : Node) : Nat := n.label.level

/-- The children of a node with the label are operands of the levels that it asks for. An operator
on the right of which a type stands asks for nothing there. -/
def Label.Admits (label : Label) (children : List Node) : Prop :=
  match label with
  | .binary operator =>
    match children with
    | [left, right] =>
      0 < operator.kind.level ∧ operator.kind ≠ .identifier ∧
        operator.kind.level ≤ left.level ∧ operator.kind.level < right.level
    | _ => False
  | .infixCall =>
    match children with
    | [left, .mk (.identifier _ function) _, right] =>
      function.token.kind = .identifier ∧ 7 ≤ left.level ∧ 7 < right.level
    | _ => False
  | .typeTest _ =>
    match children with
    | left :: _ => 5 ≤ left.level
    | [] => False
  | .cast _ =>
    match children with
    | left :: _ => 11 ≤ left.level
    | [] => False
  | .prefixed _ =>
    match children with
    | [operand] => 12 ≤ operand.level
    | _ => False
  | .call | .index | .navigation | .postfixed =>
    match children with
    | target :: _ => target.level = 13
    | [] => False
  | _ => True

mutual

/-- At every node below and at this one, the operands have the levels that the node asks for. -/
def Node.Leveled : Node → Prop
  | .mk label children => label.Admits children ∧ AllLeveled children

/-- The same of several nodes. -/
def AllLeveled : List Node → Prop
  | [] => True
  | node :: rest => node.Leveled ∧ AllLeveled rest

end

@[simp] theorem Node.leveled_mk (label : Label) (children : List Node) :
    (Node.mk label children).Leveled ↔ label.Admits children ∧ AllLeveled children := by
  rw [Node.Leveled]

@[simp] theorem allLeveled_nil : AllLeveled [] := trivial

@[simp] theorem allLeveled_cons (node : Node) (rest : List Node) :
    AllLeveled (node :: rest) ↔ node.Leveled ∧ AllLeveled rest := Iff.rfl

theorem allLeveled_iff (nodes : List Node) : AllLeveled nodes ↔ ∀ node ∈ nodes, node.Leveled := by
  induction nodes with
  | nil => simp
  | cons node rest ih => rw [allLeveled_cons, ih, List.forall_mem_cons]

@[simp] theorem allLeveled_append (xs ys : List Node) :
    AllLeveled (xs ++ ys) ↔ AllLeveled xs ∧ AllLeveled ys := by
  simp only [allLeveled_iff, List.forall_mem_append]

/-- The nodes of some phrases are leveled when each of them is. -/
theorem allLeveled_map {α : Type} (f : α → Node) (xs : List α) :
    AllLeveled (xs.map f) ↔ ∀ x ∈ xs, (f x).Leveled := by
  simp [allLeveled_iff]

/-- The node of a part that may be absent is leveled when the part is. -/
theorem allLeveled_toList {α : Type} (f : α → Node) (x : Option α) :
    AllLeveled (x.toList.map f) ↔ ∀ a ∈ x, (f a).Leveled := by
  simp [allLeveled_map]

/-! ## Names and types

No operator stands in a name or a type. -/

@[simp] theorem Identifier.leveled (role : Role) (i : Identifier) : (i.node role).Leveled :=
  ⟨trivial, trivial⟩

@[simp] theorem DottedName.leveled (d : DottedName) : d.node.Leveled :=
  ⟨trivial, (allLeveled_map _ _).mpr fun i _ => i.leveled _⟩

@[simp] theorem DottedName.leveled_header (d : DottedName) : d.headerNode.Leveled :=
  ⟨trivial, (allLeveled_map _ _).mpr fun i _ => i.leveled _⟩

@[simp] theorem allLeveled_nameNode? (role : Role) (name : Option Identifier) :
    AllLeveled (nameNode? role name) := by
  cases name <;> simp [nameNode?]

@[simp] theorem allLeveled_modifiers (modifiers : List Token) :
    AllLeveled (modifierNodes modifiers) :=
  (allLeveled_map _ _).mpr fun _ _ => ⟨trivial, trivial⟩

@[simp] theorem allLeveled_typeParameters (names : Option (List Identifier)) :
    AllLeveled (typeParametersNode? names) := by
  cases names with
  | none => trivial
  | some names =>
    exact ⟨⟨trivial, (allLeveled_map _ _).mpr fun i _ => ⟨trivial, i.leveled _, trivial⟩⟩, trivial⟩

mutual

@[simp] theorem TypeExpr.leveled : ∀ t : TypeExpr, t.node.Leveled
  | .parenthesized inner => ⟨trivial, inner.leveled, trivial⟩
  | .nothing _ | .dynamic _ => ⟨trivial, trivial⟩
  | .regular _ path arguments _ => ⟨trivial, path.leveled, allLeveled_types arguments⟩

@[simp] theorem allLeveled_types : ∀ types : List TypeExpr, AllLeveled (typeNodes types)
  | [] => trivial
  | t :: rest => ⟨t.leveled, allLeveled_types rest⟩

end

@[simp] theorem allLeveled_typeNode? (type : Option TypeExpr) : AllLeveled (typeNode? type) := by
  cases type <;> simp [typeNode?]

@[simp] theorem PackageHeader.leveled (h : PackageHeader) : h.node.Leveled :=
  ⟨trivial, (allLeveled_toList _ _).mpr fun d _ => d.leveled_header⟩

@[simp] theorem ImportHeader.leveled (h : ImportHeader) : h.node.Leveled := by
  refine ⟨trivial, ?_⟩
  simp [allLeveled_toList]

/-! ## Lists and parts that may be absent -/

theorem allLeveled_exprs (es : List Expr) :
    AllLeveled (exprNodes es) ↔ ∀ e ∈ es, e.node.Leveled := by
  rw [exprNodes_eq, allLeveled_map]

theorem allLeveled_statements (ss : List Statement) :
    AllLeveled (statementNodes ss) ↔ ∀ s ∈ ss, s.node.Leveled := by
  rw [statementNodes_eq, allLeveled_map]

theorem allLeveled_arms (arms : List MatchArm) :
    AllLeveled (armNodes arms) ↔ ∀ a ∈ arms, a.node.Leveled := by
  rw [armNodes_eq, allLeveled_map]

theorem allLeveled_conditions (cs : List Condition) :
    AllLeveled (conditionNodes cs) ↔ ∀ c ∈ cs, c.node.Leveled := by
  rw [conditionNodes_eq, allLeveled_map]

theorem allLeveled_arguments (as : List Argument) :
    AllLeveled (argumentNodes as) ↔ ∀ a ∈ as, a.node.Leveled := by
  rw [argumentNodes_eq, allLeveled_map]

theorem allLeveled_parameters (ps : List Parameter) :
    AllLeveled (parameterNodes ps) ↔ ∀ p ∈ ps, p.node.Leveled := by
  rw [parameterNodes_eq, allLeveled_map]

theorem allLeveled_accessors (as : List Accessor) :
    AllLeveled (accessorNodes as) ↔ ∀ a ∈ as, a.node.Leveled := by
  rw [accessorNodes_eq, allLeveled_map]

theorem allLeveled_declarations (ds : List Declaration) :
    AllLeveled (declarationNodes ds) ↔ ∀ d ∈ ds, d.node.Leveled := by
  rw [declarationNodes_eq, allLeveled_map]

theorem allLeveled_expr? (e : Option Expr) :
    AllLeveled (exprNode? e) ↔ ∀ a ∈ e, a.node.Leveled := by
  cases e <;> simp [exprNode?]

theorem allLeveled_branch? (b : Option Branch) :
    AllLeveled (branchNode? b) ↔ ∀ a ∈ b, a.node.Leveled := by
  cases b <;> simp [branchNode?]

theorem allLeveled_block? (b : Option Block) :
    AllLeveled (blockNode? b) ↔ ∀ a ∈ b, a.node.Leveled := by
  cases b <;> simp [blockNode?]

theorem allLeveled_parameters? (ps : Option (List Parameter)) :
    AllLeveled (parametersNode? ps) ↔ ∀ as ∈ ps, ∀ p ∈ as, p.node.Leveled := by
  cases ps <;> simp [parametersNode?, Label.Admits, allLeveled_parameters]

theorem allLeveled_body? (body : Option (List Declaration)) :
    AllLeveled (bodyNode? body) ↔ ∀ members ∈ body, ∀ d ∈ members, d.node.Leveled := by
  cases body <;> simp [bodyNode?, Label.Admits, allLeveled_declarations]

/-! ## Expressions with operators -/

/-- The levels of nodes end at 13. -/
theorem Label.level_le (label : Label) : label.level ≤ 13 := by
  unfold level
  split
  · exact Nat.le_trans (Kind.level_le _) (by decide)
  all_goals decide

namespace Expr

theorem leveled_binary {left right : Expr} {operator : Token} :
    (Expr.binary left operator right).node.Leveled ↔
      0 < operator.kind.level ∧ operator.kind ≠ .identifier ∧
        operator.kind.level ≤ left.node.level ∧ operator.kind.level < right.node.level ∧
        left.node.Leveled ∧ right.node.Leveled := by
  simp [Expr.node, Label.Admits, and_assoc]

theorem leveled_infixCall {left right : Expr} {function : Identifier} :
    (Expr.infixCall left function right).node.Leveled ↔
      function.token.kind = .identifier ∧ 7 ≤ left.node.level ∧ 7 < right.node.level ∧
        left.node.Leveled ∧ right.node.Leveled := by
  rw [Expr.node, Node.leveled_mk]
  simp [Identifier.node, Node.leaf, Label.Admits, and_assoc]

end Expr

/-! ## Reading a tree in order -/

namespace Expr

/-- A tree of literals, binary operators and infix calls, read from left to right. -/
inductive InOrder : Expr → List Token → Prop
  | literal (t : Token) : InOrder (.literal t) [t]
  | binary {left right : Expr} {ts us : List Token} (operator : Token) (hl : left.InOrder ts)
      (hr : right.InOrder us) : InOrder (.binary left operator right) (ts ++ operator :: us)
  | infixCall {left right : Expr} {ts us : List Token} (function : Identifier)
      (hl : left.InOrder ts) (hr : right.InOrder us) :
      InOrder (.infixCall left function right) (ts ++ function.token :: us)

/-- Two expressions with an operator between them, or with the function of an infix call. -/
def joined (left : Expr) (operator : Token) (right : Expr) : Expr :=
  if operator.kind = .identifier then .infixCall left ⟨operator⟩ right
  else .binary left operator right

/-- A tree that reads in order as an operand, followed by operators with their operands. No operator
on the left of the root is looser than it, and all those on its right are tighter. -/
inductive Grouped : Expr → Token → List (Token × Token) → Prop
  | literal (t : Token) : Grouped (.literal t) t []
  | joined {left right : Expr} {operator a b : Token} {as bs : List (Token × Token)}
      (hl : left.Grouped a as) (hr : right.Grouped b bs)
      (has : ∀ p ∈ as, operator.kind.level ≤ p.1.kind.level)
      (hbs : ∀ p ∈ bs, operator.kind.level < p.1.kind.level) :
      Grouped (left.joined operator right) a (as ++ (operator, b) :: bs)

end Expr

/-- The tokens of operators with their operands. -/
def linkTokens (links : List (Token × Token)) : List Token := links.flatMap fun p => [p.1, p.2]

@[simp] theorem linkTokens_append (as bs : List (Token × Token)) :
    linkTokens (as ++ bs) = linkTokens as ++ linkTokens bs := List.flatMap_append

@[simp] theorem linkTokens_cons (p : Token × Token) (links : List (Token × Token)) :
    linkTokens (p :: links) = p.1 :: p.2 :: linkTokens links := rfl

theorem linkTokens_injective {as bs : List (Token × Token)} (h : linkTokens as = linkTokens bs) :
    as = bs := by
  induction as generalizing bs with
  | nil => cases bs with
    | nil => rfl
    | cons b bs => cases h
  | cons a as ih => cases bs with
    | nil => cases h
    | cons b bs =>
      injection h with hoperator h
      injection h with hoperand h
      rw [Prod.ext hoperator hoperand, ih h]

/-- **The last of the least elements** of a list stands at one place only. -/
theorem lastLeast_unique {α : Type} (f : α → Nat) {as bs cs ds : List α} {x y : α}
    (h : as ++ x :: bs = cs ++ y :: ds) (has : ∀ a ∈ as, f x ≤ f a) (hbs : ∀ b ∈ bs, f x < f b)
    (hcs : ∀ c ∈ cs, f y ≤ f c) (hds : ∀ d ∈ ds, f y < f d) : as = cs ∧ x = y ∧ bs = ds := by
  -- if `y` stood behind `x`, it would be both greater than `x` and no greater
  have hbehind {as bs cs ds es : List α} {x y : α} (hbs : ∀ b ∈ bs, f x < f b)
      (hcs : ∀ c ∈ cs, f y ≤ f c) (hcs' : cs = as ++ es) (hx : x :: bs = es ++ y :: ds) :
      as = cs ∧ x = y ∧ bs = ds := by
    cases es with
    | nil =>
      injection hx with hx hbs'
      exact ⟨by rw [hcs', List.append_nil], hx, hbs'⟩
    | cons e es =>
      injection hx with hx hbs'
      have hlt := hbs y (by simp [hbs'])
      have hle := hcs x (by simp [hcs', hx])
      omega
  rcases List.append_eq_append_iff.mp h with ⟨es, hcs', hx⟩ | ⟨es, has', hy⟩
  · exact hbehind hbs hcs hcs' hx
  · obtain ⟨h₁, h₂, h₃⟩ := hbehind hds has has' hy
    exact ⟨h₁.symm, h₂.symm, h₃.symm⟩

namespace Expr

variable {e e' : Expr} {ts : List Token}

/-- A leveled tree is grouped around its root, and no operator in it is looser than the root. -/
theorem InOrder.grouped (h : e.InOrder ts) (hlevel : e.node.Leveled) :
    ∃ a links, ts = a :: linkTokens links ∧ e.Grouped a links ∧
      ∀ p ∈ links, e.node.level ≤ p.1.kind.level := by
  have hjoin {left right : Expr} {ts us : List Token} {operator : Token}
      (hleft : ∃ a links, ts = a :: linkTokens links ∧ left.Grouped a links ∧
        ∀ p ∈ links, left.node.level ≤ p.1.kind.level)
      (hright : ∃ a links, us = a :: linkTokens links ∧ right.Grouped a links ∧
        ∀ p ∈ links, right.node.level ≤ p.1.kind.level)
      (hle : operator.kind.level ≤ left.node.level)
      (hlt : operator.kind.level < right.node.level) :
      ∃ a links, ts ++ operator :: us = a :: linkTokens links ∧
        (left.joined operator right).Grouped a links ∧
        ∀ p ∈ links, operator.kind.level ≤ p.1.kind.level := by
    obtain ⟨a, as, rfl, hl, has⟩ := hleft
    obtain ⟨b, bs, rfl, hr, hbs⟩ := hright
    have has' : ∀ p ∈ as, operator.kind.level ≤ p.1.kind.level :=
      fun p hp => Nat.le_trans hle (has p hp)
    have hbs' : ∀ p ∈ bs, operator.kind.level < p.1.kind.level :=
      fun p hp => Nat.lt_of_lt_of_le hlt (hbs p hp)
    refine ⟨a, as ++ (operator, b) :: bs, by simp, .joined hl hr has' hbs', fun p hp => ?_⟩
    rcases List.mem_append.mp hp with hp | hp
    · exact has' p hp
    · rcases List.mem_cons.mp hp with rfl | hp
      · exact Nat.le_refl _
      · exact Nat.le_of_lt (hbs' p hp)
  induction h with
  | literal t => exact ⟨t, [], rfl, .literal t, fun _ hp => absurd hp List.not_mem_nil⟩
  | binary operator _ _ ihl ihr =>
    rw [leveled_binary] at hlevel
    obtain ⟨-, hno, hle, hlt, hl, hr⟩ := hlevel
    have h := hjoin (ihl hl) (ihr hr) hle hlt
    rwa [joined, if_neg hno] at h
  | infixCall function _ _ ihl ihr =>
    rw [leveled_infixCall] at hlevel
    obtain ⟨hname, hle, hlt, hl, hr⟩ := hlevel
    have hseven : function.token.kind.level = 7 := by rw [hname]; rfl
    have h := hjoin (ihl hl) (ihr hr) (hseven ▸ hle) (hseven ▸ hlt)
    rw [joined, if_pos hname, hseven] at h
    exact h

/-- A grouped tree is determined by what it reads as. -/
theorem Grouped.unique {a : Token} {links : List (Token × Token)} (h : e.Grouped a links)
    (h' : e'.Grouped a links) : e = e' := by
  induction h generalizing e' with
  | literal t =>
    generalize hlinks : [] = links at h'
    cases h' with
    | literal => rfl
    | joined => simp at hlinks
  | @joined left right operator a b as bs hl hr has hbs ihl ihr =>
    generalize hlinks : as ++ (operator, b) :: bs = links at h'
    cases h' with
    | literal => simp at hlinks
    | joined hl' hr' has' hbs' =>
      obtain ⟨rfl, hroot, rfl⟩ :=
        lastLeast_unique (fun p => p.1.kind.level) hlinks has hbs has' hbs'
      injection hroot with hoperator hoperand
      subst hoperator hoperand
      rw [ihl hl', ihr hr']

/-- **A leveled tree is the only one with its reading.** -/
theorem InOrder.unique (h : e.InOrder ts) (hlevel : e.node.Leveled) (h' : e'.InOrder ts)
    (hlevel' : e'.node.Leveled) : e = e' := by
  obtain ⟨a, links, rfl, hgroup, -⟩ := h.grouped hlevel
  obtain ⟨a', links', htokens, hgroup', -⟩ := h'.grouped hlevel'
  injection htokens with ha hlinks
  rw [← ha, ← linkTokens_injective hlinks] at hgroup'
  exact hgroup.unique hgroup'

end Expr

end Yurin
