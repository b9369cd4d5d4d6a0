import Yurin.Skeleton.Basic

/-!
# Scopes

The scope tree of a package: the root scope holds the top-level declarations, and every data type,
trait, alias and function opens a scope of its own. A scope holds the type parameters of its owner,
then its named members (data types and traits), then its value parameters (data types and
functions). What an implementation contains belongs to the scope around it.

A scope keeps its entries in the order in which they were declared; a later entry hides an earlier
one of the same name.
-/

namespace Yurin

open Skeleton

/-- A scope: the declaration that opened it (none for the root), its entries in order, and the
scopes inside it. -/
inductive Scope
  | mk (owner : Option Site) (entries : List (Bytes × Symbol)) (children : List Scope)

namespace Scope

/-- The declaration that opened a scope. -/
def owner : Scope → Option Site
  | .mk owner _ _ => owner

/-- The entries of a scope in the order of their declaration. -/
def entries : Scope → List (Bytes × Symbol)
  | .mk _ entries _ => entries

/-- The scopes directly inside a scope. -/
def children : Scope → List Scope
  | .mk _ _ children => children

/-- The symbol that a name stands for in a scope, without the scopes around it. -/
def local? (s : Scope) (name : Bytes) : Option Symbol := s.entries.reverse.lookup name

/-- The names of a scope, sorted and without repetition. -/
def names (s : Scope) : List Bytes := (s.entries.map (·.1)).eraseDups.mergeSort Bytes.le

/-- A scope with one more entry. -/
def declare (s : Scope) (name : Bytes) (symbol : Symbol) : Scope :=
  .mk s.owner (s.entries ++ [(name, symbol)]) s.children

/-- The entries of the declarations below a path, the first of them at position `i`. -/
def declarationEntries (path : Path) : (i : Nat) → List Skeleton.Declaration → List (Bytes × Symbol)
  | _, [] => []
  | i, d :: rest =>
    (d.name?.toList.map fun name => (name, .declaration ⟨path ++ [i], d⟩))
      ++ declarationEntries path (i + 1) rest

/-- The entries of type parameters. -/
def typeParameterEntries (path : Path) (names : List Bytes) : List (Bytes × Symbol) :=
  names.mapIdx fun i name => (name, .typeParameter path i name)

/-- The entries of value parameters. -/
def parameterEntries (path : Path) (parameters : List Skeleton.Parameter) : List (Bytes × Symbol) :=
  parameters.mapIdx fun i p => (p.name, .parameter path i p)

mutual

/-- The scopes that the declaration at a path contributes to the scope around it. -/
def ofDeclaration (path : Path) : Skeleton.Declaration → List Scope
  | .data modifiers flavor name types parameters bindings members =>
    [.mk (some ⟨path, .data modifiers flavor name types parameters bindings members⟩)
      (typeParameterEntries path types ++ declarationEntries path 0 members
        ++ parameterEntries path parameters)
      (ofDeclarations path 0 members)]
  | .trait modifiers name types inherits members =>
    [.mk (some ⟨path, .trait modifiers name types inherits members⟩)
      (typeParameterEntries path types ++ declarationEntries path 0 members)
      (ofDeclarations path 0 members)]
  | .typealias modifiers name types expanded =>
    [.mk (some ⟨path, .typealias modifiers name types expanded⟩)
      (typeParameterEntries path types) []]
  | .function modifiers receiver name types parameters returns effects =>
    [.mk (some ⟨path, .function modifiers receiver name types parameters returns effects⟩)
      (typeParameterEntries path types ++ parameterEntries path parameters) []]
  | .impl _ _ _ members => ofDeclarations path 0 members
  | .effect .. | .property .. => []

/-- The scopes of the declarations below a path, the first of them at position `i`. -/
def ofDeclarations (path : Path) (i : Nat) : List Skeleton.Declaration → List Scope
  | [] => []
  | d :: rest => ofDeclaration (path ++ [i]) d ++ ofDeclarations path (i + 1) rest

end

/-- The root scope of a package, with the whole scope tree below it. -/
def ofPackage (p : Package) : Scope :=
  .mk none (declarationEntries [] 0 p.declarations) (ofDeclarations [] 0 p.declarations)

mutual

/-- The number of scopes in a tree. -/
def size : Scope → Nat
  | .mk _ _ children => sizeAll children + 1

/-- The number of scopes in several trees. -/
def sizeAll : List Scope → Nat
  | [] => 0
  | s :: rest => s.size + sizeAll rest

end

mutual

/-- The way from the scope opened by the declaration at a path up to the root of the tree. -/
def chainOf? (path : Path) : Scope → Option (List Scope)
  | .mk owner entries children =>
    if owner.any (·.path == path) then some [.mk owner entries children]
    else (chainBelow? path children).map (· ++ [.mk owner entries children])

/-- The way up from the scope of the declaration at a path, among several trees. -/
def chainBelow? (path : Path) : List Scope → Option (List Scope)
  | [] => none
  | s :: rest =>
    match s.chainOf? path with
    | some chain => some chain
    | none => chainBelow? path rest

end

/-- The symbol that a name stands for in the first scope of a chain that has it, and that scope. -/
def lookup (name : Bytes) : (chain : List Scope) → Option (Symbol × Scope)
  | [] => none
  | s :: outer =>
    match s.local? name with
    | some symbol => some (symbol, s)
    | none => lookup name outer

end Scope

end Yurin
