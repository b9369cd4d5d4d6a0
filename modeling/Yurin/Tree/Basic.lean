import Yurin.Token

/-!
# The syntax tree

The parser builds a `SourceFile`: headers and declarations, down to statements and expressions.
A part that may be left out is an `Option`, also where the grammar wants it and error recovery
found nothing: the tree always holds what could be read.
-/

namespace Yurin

/-- The kinds of declarations. -/
inductive DeclarationKind
  | data | trait | typealias | effect | impl | function | property
  deriving DecidableEq, Repr

namespace DeclarationKind

/-- The name of a kind. -/
def name : DeclarationKind → String
  | .data => "Data"
  | .trait => "Trait"
  | .typealias => "Typealias"
  | .effect => "Effect"
  | .impl => "Impl"
  | .function => "Function"
  | .property => "Property"

end DeclarationKind

/-- One occurrence of a name. -/
structure Identifier where
  token : Token
  deriving DecidableEq, Repr, Inhabited

namespace Identifier

/-- The text of the name. -/
def name (i : Identifier) : Bytes := i.token.text

end Identifier

/-- A dotted name, from its first part on. -/
structure DottedName where
  parts : List Identifier
  deriving DecidableEq, Repr, Inhabited

namespace DottedName

/-- The texts of the parts. -/
def segments (d : DottedName) : List Bytes := d.parts.map Identifier.name

end DottedName

/-- A written type. -/
inductive TypeExpr
  | parenthesized (inner : TypeExpr)
  | nothing (token : Token)
  | dynamic (token : Token)
  | regular (existential : Bool) (name : DottedName) (arguments : List TypeExpr) (nullable : Bool)
  deriving Repr

/-- What most declarations begin with: modifiers, the introducing word, a name and type
parameters. -/
structure Head where
  modifiers : List Token
  keyword : Token
  name : Option Identifier
  typeParameters : Option (List Identifier)
  deriving DecidableEq, Repr, Inhabited

mutual

/-- An expression. -/
inductive Expr
  | literal (token : Token)
  | this (token : Token)
  | name (path : DottedName)
  | paren (inner : Expr)
  | ifElse (condition : Option Expr) (thenBranch : Branch) (elseBranch : Option Branch)
  | matchOn (subject : Option Expr) (arms : List MatchArm)
  | jump (keyword : Token) (value : Option Expr)
  | reference (operator : Token) (name : Option Identifier)
  | prefixed (operator : Token) (operand : Expr)
  | binary (left : Expr) (operator : Token) (right : Expr)
  | typeTest (left : Expr) (operator : Token) (type : Option TypeExpr)
  | cast (left : Expr) (operator : Token) (type : Option TypeExpr)
  | infixCall (left : Expr) (function : Identifier) (right : Expr)
  | call (callee : Expr) (arguments : List Argument)
  | index (target : Expr) (indices : List Expr)
  | navigation (target : Expr) (operator : Token) (name : Identifier)
  | postfixed (operand : Expr) (operator : Token)
  | bad (found : Token)

/-- A branch of a conditional or the body of a match arm: a block or one expression. -/
inductive Branch
  | block (body : Block)
  | expr (body : Expr)

/-- The statements between two braces. -/
inductive Block
  | mk (statements : List Statement)

/-- A statement of a block. -/
inductive Statement
  | declaration (declaration : Declaration)
  | localVariable (keyword : Token) (name : Option Identifier) (type : Option TypeExpr)
      (initializer : Option Expr)
  | assignment (target : Expr) (value : Expr)
  | expression (expr : Expr)

/-- An arm of a match; an `else` arm has no conditions. -/
inductive MatchArm
  | mk (isElse : Bool) (conditions : List Condition) (body : Option Branch)

/-- A condition of a match arm: a type test, a membership test or a value. -/
inductive Condition
  | ofType (operator : Token) (type : Option TypeExpr)
  | within (operator : Token) (value : Expr)
  | value (expr : Expr)

/-- An argument of a call, with its name when it is written `name = value`. -/
inductive Argument
  | mk (name : Option Identifier) (value : Expr)

/-- A value parameter: its name, type and default value. -/
inductive Parameter
  | mk (name : Identifier) (type : Option TypeExpr) (default : Option Expr)

/-- A getter or setter of a property. -/
inductive Accessor
  | mk (keyword : Token) (parameter : Option Identifier) (body : Option Block)
      (exprBody : Option Expr)

/-- A declaration, at the top level, in a type body or in a block. -/
inductive Declaration
  | data (head : Head) (flavor : Option Token) (parameters : Option (List Parameter))
      (bindings : List TypeExpr) (body : Option (List Declaration))
  | trait (head : Head) (inherits : List TypeExpr) (body : Option (List Declaration))
  | typealias (head : Head) (type : Option TypeExpr)
  | effect (head : Head)
  | impl (modifiers : List Token) (keyword : Token) (dataType : Option TypeExpr)
      (traitType : Option TypeExpr) (body : Option (List Declaration))
  | function (head : Head) (receiver : Option TypeExpr) (parameters : Option (List Parameter))
      (returnType : Option TypeExpr) (effects : List TypeExpr) (body : Option Block)
      (exprBody : Option Expr)
  | property (head : Head) (receiver : Option TypeExpr) (type : Option TypeExpr)
      (effects : List TypeExpr) (initializer : Option Expr) (accessors : List Accessor)
  | bad (first : Token) (last : Token)

end

/-- The package line of a file. -/
structure PackageHeader where
  keyword : Token
  name : Option DottedName
  deriving DecidableEq, Repr

/-- An import line of a file. -/
structure ImportHeader where
  keyword : Token
  name : Option DottedName
  wildcard : Bool
  renamed : Option Identifier
  deriving DecidableEq, Repr

/-- A parsed source. -/
structure SourceFile where
  package : Option PackageHeader
  imports : List ImportHeader
  declarations : List Declaration

namespace SourceFile

/-- The file of an empty source. -/
def empty : SourceFile := ⟨none, [], []⟩

/-- The parts of the package name, none without a package line. -/
def packageParts (f : SourceFile) : List Bytes :=
  match f.package with
  | some ⟨_, some name⟩ => name.segments
  | _ => []

end SourceFile

end Yurin
