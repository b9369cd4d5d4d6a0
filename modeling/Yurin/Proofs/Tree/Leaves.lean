import Yurin.Tree.Node

/-!
# The leaves of the syntax tree

Names and modifiers are the tokens that the later passes take from the tree. `leaves` lists them in
the order in which `Node.walk` visits them, each with what the tree holds it for. The equations of
this file say what the leaves of every kind of node are.
-/

namespace Yurin

/-- A token that the tree keeps as a name or as a modifier. -/
inductive Leaf
  | name (token : Token)
  | modifier (token : Token)
  deriving DecidableEq, Repr

namespace Leaf

/-- The token of a name. -/
def name? : Leaf → Option Token
  | .name t => some t
  | .modifier _ => none

end Leaf

/-- The names among leaves, in order. -/
def namesOf (leaves : List Leaf) : List Token := leaves.filterMap Leaf.name?

@[simp] theorem namesOf_nil : namesOf [] = [] := rfl

@[simp] theorem namesOf_append (xs ys : List Leaf) :
    namesOf (xs ++ ys) = namesOf xs ++ namesOf ys := List.filterMap_append

/-- The leaf that a node with a label is. -/
def Label.leaf? : Label → Option Leaf
  | .identifier _ i => some (.name i.token)
  | .modifier t => some (.modifier t)
  | _ => none

/-- The leaves of some nodes, in the order of a walk through all of them. -/
def leaves (nodes : List Node) : List Leaf :=
  (Node.walkAll (fun _ => true) nodes).filterMap Label.leaf?

@[simp] theorem leaves_nil : leaves [] = [] := rfl

@[simp] theorem leaves_cons (label : Label) (children rest : List Node) :
    leaves (.mk label children :: rest) =
      label.leaf?.toList ++ (leaves children ++ leaves rest) := by
  unfold leaves
  cases h : label.leaf? <;> simp [Node.walkAll, Node.walk, h]

theorem leaves_cons_node (node : Node) (rest : List Node) :
    leaves (node :: rest) = leaves [node] ++ leaves rest := by
  cases node
  simp

@[simp] theorem leaves_cons_cons (node next : Node) (rest : List Node) :
    leaves (node :: next :: rest) = leaves [node] ++ leaves (next :: rest) :=
  leaves_cons_node node (next :: rest)

@[simp] theorem leaves_append (xs ys : List Node) : leaves (xs ++ ys) = leaves xs ++ leaves ys := by
  induction xs with
  | nil => rfl
  | cons x xs ih => rw [List.cons_append, leaves_cons_node, leaves_cons_node x xs, ih,
      List.append_assoc]

theorem leaves_map {α : Type} (f : α → Node) (xs : List α) :
    leaves (xs.map f) = xs.flatMap fun x => leaves [f x] := by
  induction xs with
  | nil => rfl
  | cons x xs ih => rw [List.map_cons, leaves_cons_node, ih, List.flatMap_cons]

/-! ## Names and types -/

namespace Identifier

@[simp] theorem leaves_node (role : Role) (i : Identifier) :
    leaves [i.node role] = [.name i.token] := by
  simp [Identifier.node, Node.leaf, Label.leaf?]

end Identifier

/-- The leaves of some names. -/
def nameLeaves (names : List Identifier) : List Leaf := names.map fun i => .name i.token

@[simp] theorem nameLeaves_nil : nameLeaves [] = [] := rfl

@[simp] theorem nameLeaves_cons (i : Identifier) (rest : List Identifier) :
    nameLeaves (i :: rest) = .name i.token :: nameLeaves rest := rfl

theorem leaves_names (role : Role) (names : List Identifier) :
    leaves (names.map (·.node role)) = nameLeaves names := by
  rw [leaves_map, nameLeaves, List.map_eq_flatMap]
  simp only [Identifier.leaves_node]

@[simp] theorem leaves_nameNode? (role : Role) (name : Option Identifier) :
    leaves (nameNode? role name) = nameLeaves name.toList := by
  cases name with
  | none => rfl
  | some i => simp [nameNode?]

@[simp] theorem leaves_headerNode (d : DottedName) :
    leaves [d.headerNode] = nameLeaves d.parts := by
  simp [DottedName.headerNode, Label.leaf?, leaves_names]

@[simp] theorem leaves_pathNode (d : DottedName) : leaves [d.node] = nameLeaves d.parts := by
  simp [DottedName.node, Label.leaf?, leaves_names]

/-! ## Lists and parts that may be absent

The lists of nodes of the tree are all images of lists of phrases. -/

theorem typeNodes_eq (types : List TypeExpr) : typeNodes types = types.map TypeExpr.node := by
  induction types with
  | nil => rfl
  | cons t ts ih => rw [typeNodes, ih, List.map_cons]

theorem exprNodes_eq (exprs : List Expr) : exprNodes exprs = exprs.map Expr.node := by
  induction exprs with
  | nil => rfl
  | cons e es ih => rw [exprNodes, ih, List.map_cons]

theorem statementNodes_eq (statements : List Statement) :
    statementNodes statements = statements.map Statement.node := by
  induction statements with
  | nil => rfl
  | cons s ss ih => rw [statementNodes, ih, List.map_cons]

theorem armNodes_eq (arms : List MatchArm) : armNodes arms = arms.map MatchArm.node := by
  induction arms with
  | nil => rfl
  | cons a as ih => rw [armNodes, ih, List.map_cons]

theorem conditionNodes_eq (conditions : List Condition) :
    conditionNodes conditions = conditions.map Condition.node := by
  induction conditions with
  | nil => rfl
  | cons c cs ih => rw [conditionNodes, ih, List.map_cons]

theorem argumentNodes_eq (arguments : List Argument) :
    argumentNodes arguments = arguments.map Argument.node := by
  induction arguments with
  | nil => rfl
  | cons a as ih => rw [argumentNodes, ih, List.map_cons]

theorem parameterNodes_eq (parameters : List Parameter) :
    parameterNodes parameters = parameters.map Parameter.node := by
  induction parameters with
  | nil => rfl
  | cons p ps ih => rw [parameterNodes, ih, List.map_cons]

theorem accessorNodes_eq (accessors : List Accessor) :
    accessorNodes accessors = accessors.map Accessor.node := by
  induction accessors with
  | nil => rfl
  | cons a as ih => rw [accessorNodes, ih, List.map_cons]

theorem declarationNodes_eq (declarations : List Declaration) :
    declarationNodes declarations = declarations.map Declaration.node := by
  induction declarations with
  | nil => rfl
  | cons d ds ih => rw [declarationNodes, ih, List.map_cons]

theorem modifierNodes_leaves (modifiers : List Token) :
    leaves (modifierNodes modifiers) = modifiers.map .modifier := by
  rw [modifierNodes, leaves_map, List.map_eq_flatMap]
  simp [Node.leaf, Label.leaf?]

end Yurin
