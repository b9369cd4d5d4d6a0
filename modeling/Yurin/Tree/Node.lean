import Yurin.Tree.Basic

/-!
# The syntax tree as labelled nodes

The passes that look at every node do not care which part of its parent a node is. For them a file
is one kind of tree: a `Node` has a label and its children in source order, absent parts left out.
The label keeps what the passes ask about: for an identifier its token and what it is to its
parent, for a declaration its keyword, for a reference its parts.
-/

namespace Yurin

/-- What an identifier is to the node that holds it. -/
inductive Role
  /-- The name that a declaration introduces. -/
  | declared (kind : DeclarationKind)
  /-- The name of a value parameter. -/
  | parameter
  /-- The name of a local variable. -/
  | variable_
  /-- The name in front of a named argument. -/
  | argument
  /-- The function of an infix call. -/
  | infixFunction
  /-- Any other name. -/
  | other
  deriving DecidableEq, Repr

/-- The label of a node. -/
inductive Label
  | file
  | packageHeader
  | importHeader
  | identifier (role : Role) (id : Identifier)
  | dottedName
  | reference (parts : List Identifier)
  | modifier (token : Token)
  | declaration (kind : DeclarationKind) (keyword : Token)
  | badDeclaration
  | typeBody
  | typeParameterList
  | typeParameter (name : Identifier)
  | parameterList
  | parameter (name : Identifier)
  | accessor
  | parenthesizedType
  | nothingType
  | dynamicType
  | regularType
  | block
  | declarationStatement
  | variableStatement
  | assignmentStatement
  | expressionStatement
  | literal
  | this
  | name
  | paren
  | ifElse
  | matchOn
  | matchArm
  | ofTypeCondition
  | withinCondition
  | jump
  | callableReference
  | prefixed (operator : Token)
  | binary (operator : Token)
  | typeTest (operator : Token)
  | cast (operator : Token)
  | infixCall
  | call
  | argumentList
  | argument
  | index
  | navigation
  | postfixed
  | badExpression
  deriving DecidableEq, Repr

namespace Label

/-- The name of a kind of node. -/
def nodeName : Label → String
  | .file => "File"
  | .packageHeader => "PackageHeader"
  | .importHeader => "ImportHeader"
  | .identifier .. => "Identifier"
  | .dottedName => "DottedName"
  | .reference _ => "TypeIdentifier"
  | .modifier _ => "Modifier"
  | .declaration kind _ => kind.name ++ "Declaration"
  | .badDeclaration => "BadDeclaration"
  | .typeBody => "TypeBody"
  | .typeParameterList => "TypeParameterList"
  | .typeParameter _ => "TypeParameter"
  | .parameterList => "ValueParameterList"
  | .parameter _ => "ValueParameter"
  | .accessor => "Accessor"
  | .parenthesizedType => "ParenthesizedType"
  | .nothingType => "NothingType"
  | .dynamicType => "DynamicType"
  | .regularType => "RegularType"
  | .block => "Block"
  | .declarationStatement => "DeclarationStatement"
  | .variableStatement => "VariableStatement"
  | .assignmentStatement => "AssignmentStatement"
  | .expressionStatement => "ExpressionStatement"
  | .literal => "LiteralExpr"
  | .this => "ThisExpr"
  | .name => "NameExpr"
  | .paren => "ParenExpr"
  | .ifElse => "IfExpr"
  | .matchOn => "MatchExpr"
  | .matchArm => "MatchCase"
  | .ofTypeCondition => "IsCondition"
  | .withinCondition => "InCondition"
  | .jump => "JumpExpr"
  | .callableReference => "ReferenceExpr"
  | .prefixed _ => "PrefixExpr"
  | .binary _ => "BinaryExpr"
  | .typeTest _ => "TypeTestExpr"
  | .cast _ => "CastExpr"
  | .infixCall => "InfixFunctionCall"
  | .call => "CallExpr"
  | .argumentList => "ValueArgumentList"
  | .argument => "ValueArgument"
  | .index => "IndexExpr"
  | .navigation => "NavigationExpr"
  | .postfixed => "PostfixExpr"
  | .badExpression => "BadExpr"

end Label

/-- A node of the tree: its label and its children in source order. -/
inductive Node
  | mk (label : Label) (children : List Node)

namespace Node

/-- The label of a node. -/
def label : Node → Label
  | .mk label _ => label

/-- The children of a node. -/
def children : Node → List Node
  | .mk _ children => children

mutual

/-- The labels below a node and its own, parents before children and children in order. The
children of a node whose label `enter` refuses are left out. -/
def walk (enter : Label → Bool) : Node → List Label
  | .mk label children => label :: (if enter label then walkAll enter children else [])

/-- The labels of several nodes, one node after the other. -/
def walkAll (enter : Label → Bool) : List Node → List Label
  | [] => []
  | node :: rest => walk enter node ++ walkAll enter rest

end

/-- A node without children. -/
def leaf (label : Label) : Node := .mk label []

end Node

/-! ## From the syntax tree -/

/-- The node of a name. -/
def Identifier.node (role : Role) (i : Identifier) : Node := .leaf (.identifier role i)

/-- The node of a dotted name in a header. -/
def DottedName.headerNode (d : DottedName) : Node :=
  .mk .dottedName (d.parts.map (·.node .other))

/-- The node of a dotted name that refers to a declaration. -/
def DottedName.node (d : DottedName) : Node :=
  .mk (.reference d.parts) (d.parts.map (·.node .other))

mutual

/-- The node of a type. -/
def TypeExpr.node : TypeExpr → Node
  | .parenthesized inner => .mk .parenthesizedType [inner.node]
  | .nothing _ => .leaf .nothingType
  | .dynamic _ => .leaf .dynamicType
  | .regular _ path arguments _ => .mk .regularType (path.node :: typeNodes arguments)

/-- The nodes of a list of types. -/
def typeNodes : List TypeExpr → List Node
  | [] => []
  | type :: rest => type.node :: typeNodes rest

end

/-- The node of a type that may be absent. -/
def typeNode? : Option TypeExpr → List Node
  | none => []
  | some type => [type.node]

/-- The node of a name that may be absent. -/
def nameNode? (role : Role) : Option Identifier → List Node
  | none => []
  | some i => [i.node role]

/-- The node of a list of type parameters that may be absent. -/
def typeParametersNode? : Option (List Identifier) → List Node
  | none => []
  | some names =>
    [.mk .typeParameterList (names.map fun i => .mk (.typeParameter i) [i.node .other])]

/-- The nodes of modifiers. -/
def modifierNodes (modifiers : List Token) : List Node := modifiers.map fun t => .leaf (.modifier t)

mutual

/-- The node of an expression. -/
def Expr.node : Expr → Node
  | .literal _ => .leaf .literal
  | .this _ => .leaf .this
  | .name path => .mk .name [path.node]
  | .paren inner => .mk .paren [inner.node]
  | .ifElse condition thenBranch elseBranch =>
    .mk .ifElse (exprNode? condition ++ [thenBranch.node] ++ branchNode? elseBranch)
  | .matchOn subject arms => .mk .matchOn (exprNode? subject ++ armNodes arms)
  | .jump _ value => .mk .jump (exprNode? value)
  | .reference _ target => .mk .callableReference (nameNode? .other target)
  | .prefixed operator operand => .mk (.prefixed operator) [operand.node]
  | .binary left operator right => .mk (.binary operator) [left.node, right.node]
  | .typeTest left operator type => .mk (.typeTest operator) (left.node :: typeNode? type)
  | .cast left operator type => .mk (.cast operator) (left.node :: typeNode? type)
  | .infixCall left function right =>
    .mk .infixCall [left.node, function.node .infixFunction, right.node]
  | .call callee arguments => .mk .call [callee.node, .mk .argumentList (argumentNodes arguments)]
  | .index target indices => .mk .index (target.node :: exprNodes indices)
  | .navigation target _ member => .mk .navigation [target.node, member.node .other]
  | .postfixed operand _ => .mk .postfixed [operand.node]
  | .bad _ => .leaf .badExpression

/-- The node of an expression that may be absent. -/
def exprNode? : Option Expr → List Node
  | none => []
  | some e => [e.node]

/-- The nodes of a list of expressions. -/
def exprNodes : List Expr → List Node
  | [] => []
  | e :: rest => e.node :: exprNodes rest

/-- The node of a branch. -/
def Branch.node : Branch → Node
  | .block body => body.node
  | .expr body => body.node

/-- The node of a branch that may be absent. -/
def branchNode? : Option Branch → List Node
  | none => []
  | some b => [b.node]

/-- The node of a block. -/
def Block.node : Block → Node
  | .mk statements => .mk .block (statementNodes statements)

/-- The node of a block that may be absent. -/
def blockNode? : Option Block → List Node
  | none => []
  | some b => [b.node]

/-- The nodes of statements. -/
def statementNodes : List Statement → List Node
  | [] => []
  | s :: rest => s.node :: statementNodes rest

/-- The node of a statement. -/
def Statement.node : Statement → Node
  | .declaration d => .mk .declarationStatement [d.node]
  | .localVariable _ name type initializer =>
    .mk .variableStatement
      (nameNode? .variable_ name ++ typeNode? type ++ exprNode? initializer)
  | .assignment target value => .mk .assignmentStatement [target.node, value.node]
  | .expression e => .mk .expressionStatement [e.node]

/-- The nodes of match arms. -/
def armNodes : List MatchArm → List Node
  | [] => []
  | a :: rest => a.node :: armNodes rest

/-- The node of a match arm. -/
def MatchArm.node : MatchArm → Node
  | .mk _ conditions body => .mk .matchArm (conditionNodes conditions ++ branchNode? body)

/-- The nodes of conditions. -/
def conditionNodes : List Condition → List Node
  | [] => []
  | c :: rest => c.node :: conditionNodes rest

/-- The node of a condition. -/
def Condition.node : Condition → Node
  | .ofType _ type => .mk .ofTypeCondition (typeNode? type)
  | .within _ value => .mk .withinCondition [value.node]
  | .value e => e.node

/-- The nodes of call arguments. -/
def argumentNodes : List Argument → List Node
  | [] => []
  | a :: rest => a.node :: argumentNodes rest

/-- The node of a call argument. -/
def Argument.node : Argument → Node
  | .mk name value => .mk .argument (nameNode? .argument name ++ [value.node])

/-- The nodes of value parameters. -/
def parameterNodes : List Parameter → List Node
  | [] => []
  | p :: rest => p.node :: parameterNodes rest

/-- The node of a value parameter. -/
def Parameter.node : Parameter → Node
  | .mk name type default =>
    .mk (.parameter name) (name.node .parameter :: typeNode? type ++ exprNode? default)

/-- The node of a parameter list that may be absent. -/
def parametersNode? : Option (List Parameter) → List Node
  | none => []
  | some parameters => [.mk .parameterList (parameterNodes parameters)]

/-- The nodes of accessors. -/
def accessorNodes : List Accessor → List Node
  | [] => []
  | a :: rest => a.node :: accessorNodes rest

/-- The node of an accessor. -/
def Accessor.node : Accessor → Node
  | .mk _ parameter body exprBody =>
    .mk .accessor (nameNode? .other parameter ++ blockNode? body ++ exprNode? exprBody)

/-- The nodes of declarations. -/
def declarationNodes : List Declaration → List Node
  | [] => []
  | d :: rest => d.node :: declarationNodes rest

/-- The node of a type body that may be absent. -/
def bodyNode? : Option (List Declaration) → List Node
  | none => []
  | some members => [.mk .typeBody (declarationNodes members)]

/-- The node of a declaration. -/
def Declaration.node : Declaration → Node
  | .data head _ parameters bindings body =>
    .mk (.declaration .data head.keyword)
      (modifierNodes head.modifiers ++ nameNode? (.declared .data) head.name
        ++ typeParametersNode? head.typeParameters ++ parametersNode? parameters
        ++ typeNodes bindings ++ bodyNode? body)
  | .trait head inherits body =>
    .mk (.declaration .trait head.keyword)
      (modifierNodes head.modifiers ++ nameNode? (.declared .trait) head.name
        ++ typeParametersNode? head.typeParameters ++ typeNodes inherits ++ bodyNode? body)
  | .typealias head type =>
    .mk (.declaration .typealias head.keyword)
      (modifierNodes head.modifiers ++ nameNode? (.declared .typealias) head.name
        ++ typeParametersNode? head.typeParameters ++ typeNode? type)
  | .effect head =>
    .mk (.declaration .effect head.keyword)
      (modifierNodes head.modifiers ++ nameNode? (.declared .effect) head.name
        ++ typeParametersNode? head.typeParameters)
  | .impl modifiers keyword dataType traitType body =>
    .mk (.declaration .impl keyword)
      (modifierNodes modifiers ++ typeNode? dataType ++ typeNode? traitType ++ bodyNode? body)
  | .function head receiver parameters returnType effects body exprBody =>
    .mk (.declaration .function head.keyword)
      (modifierNodes head.modifiers ++ typeParametersNode? head.typeParameters
        ++ typeNode? receiver ++ nameNode? (.declared .function) head.name
        ++ parametersNode? parameters ++ typeNode? returnType ++ typeNodes effects
        ++ blockNode? body ++ exprNode? exprBody)
  | .property head receiver type effects initializer accessors =>
    .mk (.declaration .property head.keyword)
      (modifierNodes head.modifiers ++ typeParametersNode? head.typeParameters
        ++ typeNode? receiver ++ nameNode? (.declared .property) head.name ++ typeNode? type
        ++ typeNodes effects ++ exprNode? initializer ++ accessorNodes accessors)
  | .bad .. => .leaf .badDeclaration

end

/-- The node of a package line. -/
def PackageHeader.node (h : PackageHeader) : Node :=
  .mk .packageHeader (h.name.toList.map DottedName.headerNode)

/-- The node of an import line. -/
def ImportHeader.node (h : ImportHeader) : Node :=
  .mk .importHeader (h.name.toList.map DottedName.headerNode ++ nameNode? .other h.renamed)

/-- The node of a file. -/
def SourceFile.node (f : SourceFile) : Node :=
  .mk .file
    (f.package.toList.map PackageHeader.node ++ f.imports.map ImportHeader.node
      ++ declarationNodes f.declarations)

end Yurin
