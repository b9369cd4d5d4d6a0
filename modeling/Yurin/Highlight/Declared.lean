import Yurin.Style.Theme
import Yurin.Tree.Node

/-!
# Highlights of declared names and call forms

The second pass reads the syntax tree alone. What an identifier is to its parent decides its
category: names that are declared, names of arguments, and functions that are called between their
operands. The function of an infix call comes after both of its operands.
-/

namespace Yurin

/-- The category of a declared name. -/
def DeclarationKind.declaredCategory : DeclarationKind → Category
  | .data | .typealias => .dataDeclaration
  | .trait => .traitDeclaration
  | .effect => .effectDeclaration
  | .function => .functionDeclaration
  | .property => .propertyDeclaration
  | .impl => .none

/-- The category that the role of an identifier gives it. -/
def Role.category? : Role → Option Category
  | .declared kind => some kind.declaredCategory
  | .parameter | .variable_ => some .propertyDeclaration
  | .argument => some .namedValueArgument
  | .infixFunction => some .functionCall
  | .other => none

/-- The highlight of an identifier in its role. -/
def Identifier.highlight? (theme : Theme) (role : Role) (i : Identifier) : Option Highlight :=
  role.category?.bind fun c => theme.highlight? i.token.start i.token.stop c

/-- Whether a node is the function of an infix call. -/
def Node.isInfixFunction (n : Node) : Bool :=
  match n.label with
  | .identifier .infixFunction _ => true
  | _ => false

mutual

/-- The highlights of the identifiers below a node. -/
def declaredHighlights (theme : Theme) : Node → List Highlight
  | .mk (.identifier role i) _ => (i.highlight? theme role).toList
  | .mk .infixCall children =>
    operandHighlights theme children ++ calledHighlights theme children
  | .mk _ children => declaredHighlightsAll theme children

/-- The highlights of the identifiers below several nodes. -/
def declaredHighlightsAll (theme : Theme) : List Node → List Highlight
  | [] => []
  | node :: rest => declaredHighlights theme node ++ declaredHighlightsAll theme rest

/-- The highlights below the operands of an infix call. -/
def operandHighlights (theme : Theme) : List Node → List Highlight
  | [] => []
  | node :: rest =>
    (if node.isInfixFunction then [] else declaredHighlights theme node)
      ++ operandHighlights theme rest

/-- The highlight of the function of an infix call. -/
def calledHighlights (theme : Theme) : List Node → List Highlight
  | [] => []
  | node :: rest =>
    (if node.isInfixFunction then declaredHighlights theme node else [])
      ++ calledHighlights theme rest

end

end Yurin
