import Yurin.Scope.Bind
import Yurin.Style.Theme

/-!
# Highlights of references

The third pass follows the dotted references of a file through the skeleton of a package, and
highlights each segment that names a declaration by the kind of that declaration. A reference is
tried from the top level, when the file is of that package, and with the package name in front; both
tries count.

Parameters are not part of the skeleton's declarations; references to them are highlighted from the
bindings.
-/

namespace Yurin

open Skeleton

/-- The category of a reference to a declaration; implementations cannot be referred to. -/
def DeclarationKind.referenceCategory? : DeclarationKind → Option Category
  | .data | .typealias => some .dataDeclaration
  | .trait => some .traitDeclaration
  | .effect => some .effectDeclaration
  | .function => some .functionCall
  | .property => some .propertyDeclaration
  | .impl => none

mutual

/-- The references below a node, each by its parts, in source order. -/
def Node.references : Node → List (List Identifier)
  | .mk (.reference parts) _ => [parts]
  | .mk _ children => referencesAll children

/-- The references below several nodes. -/
def referencesAll : List Node → List (List Identifier)
  | [] => []
  | node :: rest => node.references ++ referencesAll rest

end

/-- The highlights of the parts of a reference that have matches. -/
def matchHighlights (theme : Theme) (parts : List Identifier) (found : List Match) :
    List Highlight :=
  found.filterMap fun m =>
    m.site.declaration.kind.referenceCategory?.bind fun c =>
      parts[m.segment]?.bind fun part => theme.highlight? part.token.start part.token.stop c

/-- What became of a reference: the matches from the top level and those after the package name. -/
structure Resolution where
  parts : List Identifier
  fromTop : List Match
  qualified : List Match

namespace Resolution

/-- Resolves a reference. `samePackage` says whether the file is of the package. -/
def of (package : Package) (samePackage : Bool) (parts : List Identifier) : Resolution :=
  let segments := parts.map Identifier.name
  ⟨parts, if samePackage then package.resolveLocal segments else [],
   package.resolveQualified segments⟩

/-- The number of leading segments that matches reach. -/
def reach (found : List Match) : Nat := (found.getLast?.map (·.segment + 1)).getD 0

/-- The number of leading segments that were resolved. -/
def resolved (r : Resolution) : Nat := max (reach r.fromTop) (reach r.qualified)

/-- The highlights of a resolved reference. -/
def highlights (theme : Theme) (r : Resolution) : List Highlight :=
  matchHighlights theme r.parts r.fromTop ++ matchHighlights theme r.parts r.qualified

end Resolution

/-- The resolutions of the references of a file. -/
def resolutions (file : SourceFile) (package : Package) : List Resolution :=
  file.node.references.map (Resolution.of package (package.qualifies file.packageParts))

/-- The highlights of the references of a file. -/
def referenceHighlights (theme : Theme) (file : SourceFile) (package : Package) : List Highlight :=
  (resolutions file package).flatMap (Resolution.highlights theme)

/-- The category of a reference to a parameter. -/
def Skeleton.Symbol.parameterCategory? : Symbol → Option Category
  | .declaration _ => none
  | .typeParameter .. | .detached _ => some .typeParameter
  | .parameter .. => some .parameter

/-- The highlights of the references that are bound to parameters. -/
def bindingHighlights (theme : Theme) (bindings : List Binding) : List Highlight :=
  bindings.filterMap fun b =>
    b.symbol.parameterCategory?.bind fun c => theme.highlight? b.token.start b.token.stop c

end Yurin
