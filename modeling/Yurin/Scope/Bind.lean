import Yurin.Scope
import Yurin.Skeleton.Build
import Yurin.Skeleton.Resolve
import Yurin.Tree.Node

/-!
# Binding references

`bind` ties the parts of every dotted reference of a file to the symbols they name. The first part
is looked up from the innermost scope outwards; when no scope has it, the reference is resolved
against the package, with the package name in front first and then from the top level. Further
parts are members of what the part before names. Parameters have no members, so they end a
reference.
-/

namespace Yurin

open Skeleton

/-- A name occurrence and the symbol it stands for. -/
structure Binding where
  token : Token
  symbol : Symbol

/-- The bindings of the parts that have matches. -/
def bindMatches (parts : List Identifier) (found : List Match) : List Binding :=
  found.filterMap fun m => parts[m.segment]?.map fun part => ⟨part.token, .declaration m.site⟩

/-- The bindings of a reference to a package in a chain of scopes. -/
def bindReference (package : Package) (chain : List Scope) (parts : List Identifier) :
    List Binding :=
  match parts with
  | [] => []
  | first :: rest =>
    let segments := parts.map Identifier.name
    match Scope.lookup first.name chain with
    | none =>
      match package.resolveQualified segments with
      | [] => bindMatches parts (package.resolveLocal segments)
      | found => bindMatches parts found
    | some (.declaration site, _) =>
      ⟨first.token, .declaration site⟩
        :: bindMatches parts (site.follow 1 (rest.map Identifier.name))
    | some (symbol, _) => [⟨first.token, symbol⟩]

mutual

/-- The bindings below a node in a chain of scopes. `opened` gives the chain of a declaration that
opens a scope. -/
def bindNode (package : Package) (opened : Token → Option (List Scope)) (chain : List Scope) :
    Node → List Binding
  | .mk (.reference parts) _ => bindReference package chain parts
  | .mk (.declaration _ keyword) children =>
    bindNodes package opened ((opened keyword).getD chain) children
  | .mk _ children => bindNodes package opened chain children

/-- The bindings below several nodes. -/
def bindNodes (package : Package) (opened : Token → Option (List Scope)) (chain : List Scope) :
    List Node → List Binding
  | [] => []
  | node :: rest => bindNode package opened chain node ++ bindNodes package opened chain rest

end

/-- The bindings of a file to its own skeleton, index and scope tree. -/
def bind (file : SourceFile) (package : Package) (index : Index) (root : Scope) : List Binding :=
  bindNode package
    (fun keyword => (index.declaration? keyword).bind fun site => root.chainOf? site.path)
    [root] file.node

/-- The bindings of a file to the skeleton and scope tree of another source, in which none of its
own declarations opens a scope. -/
def bindForeign (file : SourceFile) (package : Package) (root : Scope) : List Binding :=
  bindNode package (fun _ => none) [root] file.node

end Yurin
