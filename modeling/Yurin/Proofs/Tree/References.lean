import Yurin.Highlight.Referenced
import Yurin.Proofs.Tree.Leaves

/-!
# References in the syntax tree

A reference node keeps its parts in its label, and has a child for each of them. A name keeps in its
label what it is to the node above it, which is never the name of an implementation.
`SourceFile.named` shows that this holds at every node of a file.

`Node.nameSites` lists the names of a tree in its order, each with the label of the node that it
stands directly below. These are all names of the tree (`namesOf_leaves`), and those below
references are the parts of references (`Node.references_eq`). What is bound are parts of
references: `mem_bindNode`.
-/

namespace Yurin

/-! ## Names and the nodes above them -/

/-- What a name is to the node that it stands directly below. -/
def Label.role : Label → Role
  | .declaration kind _ => .declared kind
  | .parameter _ => .parameter
  | .variableStatement => .variable_
  | .argument => .argument
  | .infixCall => .infixFunction
  | _ => .other

mutual

/-- At every node below and at this one, which stands below a node with the label `parent`: the
children of a reference are the names that it consists of, and a name has no children and the role
that its parent gives it. No name is that of an implementation. -/
def Node.Named (parent : Label) : Node → Prop
  | .mk label children =>
    (∀ parts, label = .reference parts → children = parts.map (·.node .other)) ∧
      (∀ role i, label = .identifier role i →
        role = parent.role ∧ role ≠ .declared .impl ∧ children = []) ∧
      NamedAll label children

/-- The same of several nodes. -/
def NamedAll (parent : Label) : List Node → Prop
  | [] => True
  | node :: rest => node.Named parent ∧ NamedAll parent rest

end

section Named

variable {parent : Label}

@[simp] theorem namedAll_nil : NamedAll parent [] := trivial

@[simp] theorem namedAll_cons (node : Node) (rest : List Node) :
    NamedAll parent (node :: rest) ↔ node.Named parent ∧ NamedAll parent rest := Iff.rfl

theorem namedAll_iff (nodes : List Node) :
    NamedAll parent nodes ↔ ∀ node ∈ nodes, node.Named parent := by
  induction nodes with
  | nil => simp
  | cons node rest ih => rw [namedAll_cons, ih, List.forall_mem_cons]

@[simp] theorem namedAll_append (xs ys : List Node) :
    NamedAll parent (xs ++ ys) ↔ NamedAll parent xs ∧ NamedAll parent ys := by
  simp only [namedAll_iff, List.forall_mem_append]

/-- The labels of references and of names. -/
def Label.isSpecial : Label → Bool
  | .reference _ | .identifier .. => true
  | _ => false

/-- A node that is no reference and no name. -/
theorem Node.named_mk {label : Label} {children : List Node} (h : NamedAll label children)
    (hlabel : label.isSpecial = false) : (Node.mk label children).Named parent := by
  refine ⟨?_, ?_, h⟩
  · rintro parts rfl
    cases hlabel
  · rintro role i rfl
    cases hlabel

theorem Identifier.named {role : Role} (i : Identifier) (h : role = parent.role)
    (hrole : role ≠ .declared .impl) : (i.node role).Named parent := by
  refine ⟨nofun, ?_, trivial⟩
  rintro _ _ ⟨⟩
  exact ⟨h, hrole, rfl⟩

theorem namedAll_names (names : List Identifier) (h : parent.role = .other) :
    NamedAll parent (names.map (·.node .other)) := by
  rw [namedAll_iff]
  rintro _ hnode
  obtain ⟨i, -, rfl⟩ := List.mem_map.mp hnode
  exact i.named h.symm nofun

theorem namedAll_nameNode? {role : Role} (name : Option Identifier)
    (h : role = parent.role) (hrole : role ≠ .declared .impl) :
    NamedAll parent (nameNode? role name) := by
  cases name with
  | none => trivial
  | some i => exact ⟨i.named h hrole, trivial⟩

@[simp] theorem namedAll_declared {kind : DeclarationKind} (keyword : Token)
    (name : Option Identifier) (h : kind ≠ .impl) :
    NamedAll (.declaration kind keyword) (nameNode? (.declared kind) name) :=
  namedAll_nameNode? name rfl fun heq => h (Role.declared.inj heq)

@[simp] theorem DottedName.named (d : DottedName) : d.node.Named parent := by
  refine ⟨?_, ?_, namedAll_names d.parts rfl⟩
  · rintro _ ⟨⟩
    rfl
  · rintro role i ⟨⟩

@[simp] theorem namedAll_modifiers (modifiers : List Token) :
    NamedAll parent (modifierNodes modifiers) := by
  rw [namedAll_iff]
  rintro _ h
  obtain ⟨t, -, rfl⟩ := List.mem_map.mp h
  exact Node.named_mk trivial rfl

@[simp] theorem namedAll_typeParameters (names : Option (List Identifier)) :
    NamedAll parent (typeParametersNode? names) := by
  cases names with
  | none => trivial
  | some names =>
    refine ⟨Node.named_mk ?_ rfl, trivial⟩
    rw [namedAll_iff]
    rintro _ h
    obtain ⟨i, -, rfl⟩ := List.mem_map.mp h
    exact Node.named_mk ⟨i.named rfl nofun, trivial⟩ rfl

mutual

@[simp] theorem TypeExpr.named : ∀ (t : TypeExpr) {parent : Label}, t.node.Named parent
  | .parenthesized inner => Node.named_mk ⟨inner.named, trivial⟩ rfl
  | .nothing _ | .dynamic _ => Node.named_mk trivial rfl
  | .regular _ path arguments _ => Node.named_mk ⟨path.named, namedAll_types arguments⟩ rfl

@[simp] theorem namedAll_types :
    ∀ (types : List TypeExpr) {parent : Label}, NamedAll parent (typeNodes types)
  | [] => trivial
  | t :: rest => ⟨t.named, namedAll_types rest⟩

end

@[simp] theorem namedAll_typeNode? (type : Option TypeExpr) : NamedAll parent (typeNode? type) := by
  cases type with
  | none => trivial
  | some t => exact ⟨t.named, trivial⟩

mutual

theorem Expr.named : ∀ (e : Expr) {parent : Label}, e.node.Named parent
  | .literal _ | .this _ | .bad _ => Node.named_mk trivial rfl
  | .name path => Node.named_mk ⟨path.named, trivial⟩ rfl
  | .paren inner => Node.named_mk ⟨inner.named, trivial⟩ rfl
  | .ifElse condition thenBranch elseBranch => by
    refine Node.named_mk ?_ rfl
    simp [namedAll_expr? condition, thenBranch.named, namedAll_branch? elseBranch]
  | .matchOn subject arms => by
    refine Node.named_mk ?_ rfl
    simp [namedAll_expr? subject, namedAll_arms arms]
  | .jump _ value => Node.named_mk (namedAll_expr? value) rfl
  | .reference _ target => Node.named_mk (namedAll_nameNode? target rfl nofun) rfl
  | .prefixed _ operand => Node.named_mk ⟨operand.named, trivial⟩ rfl
  | .binary left _ right => Node.named_mk ⟨left.named, right.named, trivial⟩ rfl
  | .typeTest left _ type => Node.named_mk ⟨left.named, namedAll_typeNode? type⟩ rfl
  | .cast left _ type => Node.named_mk ⟨left.named, namedAll_typeNode? type⟩ rfl
  | .infixCall left function right =>
    Node.named_mk ⟨left.named, function.named rfl nofun, right.named, trivial⟩ rfl
  | .call callee arguments =>
    Node.named_mk ⟨callee.named, Node.named_mk (namedAll_arguments arguments) rfl, trivial⟩ rfl
  | .index target indices => Node.named_mk ⟨target.named, namedAll_exprs indices⟩ rfl
  | .navigation target _ member =>
    Node.named_mk ⟨target.named, member.named rfl nofun, trivial⟩ rfl
  | .postfixed operand _ => Node.named_mk ⟨operand.named, trivial⟩ rfl

theorem namedAll_expr? : ∀ (e : Option Expr) {parent : Label}, NamedAll parent (exprNode? e)
  | none => trivial
  | some e => ⟨e.named, trivial⟩

theorem namedAll_exprs : ∀ (es : List Expr) {parent : Label}, NamedAll parent (exprNodes es)
  | [] => trivial
  | e :: rest => ⟨e.named, namedAll_exprs rest⟩

theorem Branch.named : ∀ (b : Branch) {parent : Label}, b.node.Named parent
  | .block body => body.named
  | .expr body => body.named

theorem namedAll_branch? : ∀ (b : Option Branch) {parent : Label}, NamedAll parent (branchNode? b)
  | none => trivial
  | some b => ⟨b.named, trivial⟩

theorem Block.named : ∀ (b : Block) {parent : Label}, b.node.Named parent
  | .mk statements => Node.named_mk (namedAll_statements statements) rfl

theorem namedAll_block? : ∀ (b : Option Block) {parent : Label}, NamedAll parent (blockNode? b)
  | none => trivial
  | some b => ⟨b.named, trivial⟩

theorem namedAll_statements :
    ∀ (ss : List Statement) {parent : Label}, NamedAll parent (statementNodes ss)
  | [] => trivial
  | s :: rest => ⟨s.named, namedAll_statements rest⟩

theorem Statement.named : ∀ (s : Statement) {parent : Label}, s.node.Named parent
  | .declaration d => Node.named_mk ⟨d.named, trivial⟩ rfl
  | .localVariable _ name type initializer => by
    have hname : NamedAll .variableStatement (nameNode? .variable_ name) :=
      namedAll_nameNode? name rfl nofun
    refine Node.named_mk ?_ rfl
    simp [hname, namedAll_expr? initializer]
  | .assignment target value => Node.named_mk ⟨target.named, value.named, trivial⟩ rfl
  | .expression e => Node.named_mk ⟨e.named, trivial⟩ rfl

theorem namedAll_arms : ∀ (as : List MatchArm) {parent : Label}, NamedAll parent (armNodes as)
  | [] => trivial
  | a :: rest => ⟨a.named, namedAll_arms rest⟩

theorem MatchArm.named : ∀ (a : MatchArm) {parent : Label}, a.node.Named parent
  | .mk _ conditions body => by
    refine Node.named_mk ?_ rfl
    simp [namedAll_conditions conditions, namedAll_branch? body]

theorem namedAll_conditions :
    ∀ (cs : List Condition) {parent : Label}, NamedAll parent (conditionNodes cs)
  | [] => trivial
  | c :: rest => ⟨c.named, namedAll_conditions rest⟩

theorem Condition.named : ∀ (c : Condition) {parent : Label}, c.node.Named parent
  | .ofType _ type => Node.named_mk (namedAll_typeNode? type) rfl
  | .within _ value => Node.named_mk ⟨value.named, trivial⟩ rfl
  | .value e => e.named

theorem namedAll_arguments :
    ∀ (as : List Argument) {parent : Label}, NamedAll parent (argumentNodes as)
  | [] => trivial
  | a :: rest => ⟨a.named, namedAll_arguments rest⟩

theorem Argument.named : ∀ (a : Argument) {parent : Label}, a.node.Named parent
  | .mk name value => by
    have hname : NamedAll .argument (nameNode? .argument name) := namedAll_nameNode? name rfl nofun
    refine Node.named_mk ?_ rfl
    simp [hname, value.named]

theorem namedAll_parameters :
    ∀ (ps : List Parameter) {parent : Label}, NamedAll parent (parameterNodes ps)
  | [] => trivial
  | p :: rest => ⟨p.named, namedAll_parameters rest⟩

theorem Parameter.named : ∀ (p : Parameter) {parent : Label}, p.node.Named parent
  | .mk name type default => by
    have hname : (name.node .parameter).Named (.parameter name) := name.named rfl nofun
    refine Node.named_mk ?_ rfl
    simp [hname, namedAll_expr? default]

theorem namedAll_parameters? :
    ∀ (ps : Option (List Parameter)) {parent : Label}, NamedAll parent (parametersNode? ps)
  | none => trivial
  | some ps => ⟨Node.named_mk (namedAll_parameters ps) rfl, trivial⟩

theorem namedAll_accessors :
    ∀ (as : List Accessor) {parent : Label}, NamedAll parent (accessorNodes as)
  | [] => trivial
  | a :: rest => ⟨a.named, namedAll_accessors rest⟩

theorem Accessor.named : ∀ (a : Accessor) {parent : Label}, a.node.Named parent
  | .mk _ parameter body exprBody => by
    have hname : NamedAll .accessor (nameNode? .other parameter) :=
      namedAll_nameNode? parameter rfl nofun
    refine Node.named_mk ?_ rfl
    simp [hname, namedAll_block? body, namedAll_expr? exprBody]

theorem namedAll_declarations :
    ∀ (ds : List Declaration) {parent : Label}, NamedAll parent (declarationNodes ds)
  | [] => trivial
  | d :: rest => ⟨d.named, namedAll_declarations rest⟩

theorem namedAll_body? :
    ∀ (body : Option (List Declaration)) {parent : Label}, NamedAll parent (bodyNode? body)
  | none => trivial
  | some members => ⟨Node.named_mk (namedAll_declarations members) rfl, trivial⟩

theorem Declaration.named : ∀ (d : Declaration) {parent : Label}, d.node.Named parent
  | .data _ _ parameters _ body => by
    refine Node.named_mk ?_ rfl
    simp [namedAll_parameters? parameters, namedAll_body? body]
  | .trait _ _ body => by
    refine Node.named_mk ?_ rfl
    simp [namedAll_body? body]
  | .typealias .. | .effect .. => Node.named_mk (by simp) rfl
  | .impl _ _ _ _ body => by
    refine Node.named_mk ?_ rfl
    simp [namedAll_body? body]
  | .function _ _ parameters _ _ body exprBody => by
    refine Node.named_mk ?_ rfl
    simp [namedAll_parameters? parameters, namedAll_block? body, namedAll_expr? exprBody]
  | .property _ _ _ _ initializer accessors => by
    refine Node.named_mk ?_ rfl
    simp [namedAll_expr? initializer, namedAll_accessors accessors]
  | .bad .. => Node.named_mk trivial rfl

end

/-- **The names of a file are what the nodes above them say.** -/
theorem SourceFile.named (f : SourceFile) : f.node.Named .file := by
  have hheader (parent : Label) (name : Option DottedName) :
      NamedAll parent (name.toList.map DottedName.headerNode) := by
    cases name with
    | none => trivial
    | some d => exact ⟨Node.named_mk (namedAll_names d.parts rfl) rfl, trivial⟩
  refine Node.named_mk ?_ rfl
  simp only [namedAll_append, namedAll_declarations f.declarations, and_true]
  refine ⟨?_, ?_⟩
  · cases f.package with
    | none => trivial
    | some p => exact ⟨Node.named_mk (hheader _ p.name) rfl, trivial⟩
  · rw [namedAll_iff]
    rintro _ h
    obtain ⟨i, -, rfl⟩ := List.mem_map.mp h
    have hrenamed : NamedAll .importHeader (nameNode? .other i.renamed) :=
      namedAll_nameNode? i.renamed rfl nofun
    refine Node.named_mk ?_ rfl
    simp [hheader _ i.name, hrenamed]

end Named

/-! ## The names of a tree -/

/-- A name and the label of the node above it. -/
structure NameSite where
  parent : Label
  name : Identifier

/-- The name that a node with a label is. -/
def Label.identifier? : Label → Option Identifier
  | .identifier _ i => some i
  | _ => none

/-- Whether a node is a reference. -/
def Label.isReference : Label → Bool
  | .reference _ => true
  | _ => false

mutual

/-- The names at and below a node that stands below a node with the label `parent`. -/
def Node.nameSites (parent : Label) : Node → List NameSite
  | .mk label children =>
    (label.identifier?.map (⟨parent, ·⟩)).toList ++ nameSitesAll label children

/-- The names at and below several nodes. -/
def nameSitesAll (parent : Label) : List Node → List NameSite
  | [] => []
  | node :: rest => node.nameSites parent ++ nameSitesAll parent rest

end

/-- The names of a file. -/
def SourceFile.nameSites (f : SourceFile) : List NameSite := f.node.nameSites .file

mutual

/-- **All names of a tree** are listed. -/
theorem namesOf_leaves (parent : Label) : (node : Node) →
    namesOf (leaves [node]) = (node.nameSites parent).map (·.name.token)
  | .mk label children => by
    rw [leaves_cons, leaves_nil, List.append_nil, namesOf_append, Node.nameSites, List.map_append,
      namesOf_leavesAll label children]
    congr 1
    cases label <;> rfl

theorem namesOf_leavesAll (parent : Label) : (nodes : List Node) →
    namesOf (leaves nodes) = (nameSitesAll parent nodes).map (·.name.token)
  | [] => rfl
  | node :: rest => by
    rw [leaves_cons_node, namesOf_append, nameSitesAll, List.map_append,
      namesOf_leaves parent node, namesOf_leavesAll parent rest]

end

mutual

/-- No name stands directly below an implementation. -/
theorem Node.role_ne_impl : ∀ {parent : Label} {node : Node}, node.Named parent →
    ∀ s ∈ node.nameSites parent, s.parent.role ≠ .declared .impl
  | parent, .mk label children, hnamed, s, hs => by
    rw [Node.nameSites, List.mem_append] at hs
    rcases hs with hs | hs
    · cases label with
      | identifier role i =>
        obtain ⟨rfl, hrole, -⟩ := hnamed.2.1 role i rfl
        obtain rfl := List.mem_singleton.mp hs
        exact hrole
      | _ => cases hs
    · exact role_ne_impl_all hnamed.2.2 s hs

theorem role_ne_impl_all : ∀ {parent : Label} {nodes : List Node}, NamedAll parent nodes →
    ∀ s ∈ nameSitesAll parent nodes, s.parent.role ≠ .declared .impl
  | _, [], _, _, hs => by cases hs
  | _, node :: rest, hnamed, s, hs => by
    rcases List.mem_append.mp hs with hs | hs
    · exact Node.role_ne_impl hnamed.1 s hs
    · exact role_ne_impl_all hnamed.2 s hs

end

theorem SourceFile.mem_leaves {file : SourceFile} {s : NameSite} (hs : s ∈ file.nameSites) :
    .name s.name.token ∈ leaves [file.node] := by
  have hname : s.name.token ∈ namesOf (leaves [file.node]) := by
    rw [namesOf_leaves .file]
    exact List.mem_map_of_mem hs
  obtain ⟨leaf, hleaf, heq⟩ := List.mem_filterMap.mp hname
  cases leaf with
  | name => exact Option.some.inj heq ▸ hleaf
  | modifier => cases heq

/-! ## Parts of references -/

theorem nameSitesAll_names (parent : Label) (role : Role) (names : List Identifier) :
    nameSitesAll parent (names.map (·.node role)) = names.map (⟨parent, ·⟩) := by
  induction names with
  | nil => rfl
  | cons i rest ih => rw [List.map_cons, nameSitesAll, ih, List.map_cons]; rfl

mutual

/-- **The parts of references** are the names below references. -/
theorem Node.references_eq : ∀ {parent : Label} {node : Node}, node.Named parent →
    parent.isReference = false →
    node.references.flatten =
      ((node.nameSites parent).filter (·.parent.isReference)).map NameSite.name
  | parent, .mk label children, hnamed, hparent => by
    have hown : ((label.identifier?.map (NameSite.mk parent)).toList).filter
        (·.parent.isReference) = [] := by
      cases label <;> simp [Label.identifier?, hparent]
    rw [Node.nameSites, List.filter_append, hown, List.nil_append]
    cases label with
    | reference parts =>
      have hall : (parts.map (NameSite.mk (.reference parts))).filter (·.parent.isReference) =
          parts.map (NameSite.mk (.reference parts)) :=
        List.filter_eq_self.mpr (List.forall_mem_map.mpr fun _ _ => rfl)
      rw [hnamed.1 parts rfl, nameSitesAll_names, hall, List.map_map, Node.references,
        List.flatten_singleton]
      exact (List.map_id parts).symm
    | _ => exact referencesAll_eq hnamed.2.2 rfl

theorem referencesAll_eq : ∀ {parent : Label} {nodes : List Node}, NamedAll parent nodes →
    parent.isReference = false →
    (referencesAll nodes).flatten =
      ((nameSitesAll parent nodes).filter (·.parent.isReference)).map NameSite.name
  | _, [], _, _ => rfl
  | _, node :: rest, hnamed, hparent => by
    rw [referencesAll, List.flatten_append, nameSitesAll, List.filter_append, List.map_append,
      Node.references_eq hnamed.1 hparent, referencesAll_eq hnamed.2 hparent]

end

/-- A part of a reference is a name below a reference. -/
theorem exists_site_of_part {file : SourceFile} {parts : List Identifier} {i : Identifier}
    (hparts : parts ∈ file.node.references) (hi : i ∈ parts) :
    ∃ s ∈ file.nameSites, s.parent.isReference = true ∧ s.name = i := by
  have hmem : i ∈ file.node.references.flatten := List.mem_flatten.mpr ⟨parts, hparts, hi⟩
  rw [Node.references_eq file.named rfl] at hmem
  obtain ⟨s, hs, rfl⟩ := List.mem_map.mp hmem
  exact ⟨s, (List.mem_filter.mp hs).1, (List.mem_filter.mp hs).2, rfl⟩

/-- The parts of references are names of the tree. -/
theorem SourceFile.mem_references {file : SourceFile} {parts : List Identifier} {i : Identifier}
    (hparts : parts ∈ file.node.references) (hi : i ∈ parts) :
    .name i.token ∈ leaves [file.node] := by
  obtain ⟨s, hs, -, rfl⟩ := exists_site_of_part hparts hi
  exact SourceFile.mem_leaves hs

/-! ## What is bound -/

/-- The references below a node that is none itself. -/
theorem Node.references_mk {label : Label} {children : List Node}
    (h : ∀ parts, label ≠ .reference parts) :
    (Node.mk label children).references = referencesAll children := by
  unfold Node.references
  split
  · rename_i parts _ heq
    injection heq with hlabel
    exact absurd hlabel (h parts)
  · rename_i heq
    injection heq with _ hchildren
    rw [hchildren]

theorem mem_bindMatches {parts : List Identifier} {found : List Skeleton.Match} {b : Binding}
    (h : b ∈ bindMatches parts found) : ∃ i ∈ parts, i.token = b.token := by
  obtain ⟨m, -, hm⟩ := List.mem_filterMap.mp h
  obtain ⟨i, hi, rfl⟩ := Option.map_eq_some_iff.mp hm
  exact ⟨i, List.mem_of_getElem? hi, rfl⟩

theorem mem_bindReference {package : Skeleton.Package} {chain : List Scope}
    {parts : List Identifier} {b : Binding} (h : b ∈ bindReference package chain parts) :
    ∃ i ∈ parts, i.token = b.token := by
  unfold bindReference at h
  split at h
  · cases h
  · dsimp only at h
    split at h
    · split at h
      · exact mem_bindMatches h
      · exact mem_bindMatches h
    · rcases List.mem_cons.mp h with rfl | h
      · exact ⟨_, List.mem_cons_self, rfl⟩
      · exact mem_bindMatches h
    · rw [List.mem_singleton] at h
      exact ⟨_, List.mem_cons_self, by rw [h]⟩

mutual

/-- **What is bound** is a part of a reference. -/
theorem mem_bindNode {package : Skeleton.Package} {opened : Token → Option (List Scope)}
    {b : Binding} :
    ∀ {chain : List Scope} {node : Node}, b ∈ bindNode package opened chain node →
      ∃ parts ∈ node.references, ∃ i ∈ parts, i.token = b.token
  | chain, .mk label children, h => by
    unfold bindNode at h
    split at h
    · rename_i parts _ heq
      injection heq with hlabel hchildren
      subst hlabel hchildren
      exact ⟨parts, List.mem_singleton_self _, mem_bindReference h⟩
    · rename_i heq
      injection heq with hlabel hchildren
      subst hlabel hchildren
      exact mem_bindNodes h
    · rename_i hnot _ heq
      injection heq with hlabel hchildren
      subst hlabel hchildren
      rw [Node.references_mk hnot]
      exact mem_bindNodes h

theorem mem_bindNodes {package : Skeleton.Package} {opened : Token → Option (List Scope)}
    {b : Binding} :
    ∀ {chain : List Scope} {nodes : List Node}, b ∈ bindNodes package opened chain nodes →
      ∃ parts ∈ referencesAll nodes, ∃ i ∈ parts, i.token = b.token
  | _, [], h => by cases h
  | _, node :: rest, h => by
    rcases List.mem_append.mp h with h | h
    · obtain ⟨parts, hparts, hpart⟩ := mem_bindNode h
      exact ⟨parts, List.mem_append_left _ hparts, hpart⟩
    · obtain ⟨parts, hparts, hpart⟩ := mem_bindNodes h
      exact ⟨parts, List.mem_append_right _ hparts, hpart⟩

end

end Yurin
