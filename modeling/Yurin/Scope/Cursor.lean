import Yurin.Scope

/-!
# Moving through a scope tree

A `ScopeCursor` is a scope tree with a place in it, given by the child taken at each scope from the
root on. It moves up and down and can add entries to the scope it stands at.
-/

namespace Yurin

open Skeleton

/-- A scope tree and a place in it. -/
structure ScopeCursor where
  root : Scope
  place : List Nat

namespace ScopeCursor

/-- The cursor at the root of a tree. -/
def start (root : Scope) : ScopeCursor := ⟨root, []⟩

/-- The scopes from the one below `s` at a place up to `s`, before the scopes `outer` around it. -/
def chainFrom (s : Scope) (outer : List Scope) : (place : List Nat) → List Scope
  | [] => s :: outer
  | i :: rest =>
    match s.children[i]? with
    | some child => chainFrom child (s :: outer) rest
    | none => s :: outer

/-- The scopes from the current one up to the root. -/
def chain (c : ScopeCursor) : List Scope := chainFrom c.root [] c.place

/-- The current scope. -/
def scope (c : ScopeCursor) : Scope := c.chain.headD c.root

/-- The cursor at the root. -/
def toRoot (c : ScopeCursor) : ScopeCursor := { c with place := [] }

/-- The cursor at a child of the current scope. -/
def child? (c : ScopeCursor) (i : Nat) : Option ScopeCursor :=
  if i < c.scope.children.length then some { c with place := c.place ++ [i] } else none

/-- The cursor at the scope around the current one. -/
def parent? (c : ScopeCursor) : Option ScopeCursor :=
  if c.place.isEmpty then none else some { c with place := c.place.dropLast }

mutual

/-- The place of the scope opened by the declaration at a path, below a scope. -/
def placeOf? (path : Path) : Scope → Option (List Nat)
  | .mk owner _ children =>
    if owner.any (·.path == path) then some [] else placeAmong? path 0 children

/-- The place of the scope opened by the declaration at a path, among the children of a scope from
number `i` on. -/
def placeAmong? (path : Path) (i : Nat) : List Scope → Option (List Nat)
  | [] => none
  | s :: rest =>
    match placeOf? path s with
    | some place => some (i :: place)
    | none => placeAmong? path (i + 1) rest

end

/-- The cursor at the scope that the declaration at a path opens. -/
def of? (c : ScopeCursor) (path : Path) : Option ScopeCursor :=
  (placeOf? path c.root).map fun place => { c with place }

/-- A tree with the scope at a place changed. -/
def update (f : Scope → Scope) : (place : List Nat) → Scope → Scope
  | [], s => f s
  | i :: rest, s => .mk s.owner s.entries (s.children.modify i (update f rest))

/-- The cursor after one more entry in the current scope. -/
def declare (c : ScopeCursor) (name : Bytes) (symbol : Symbol) : ScopeCursor :=
  { c with root := update (·.declare name symbol) c.place c.root }

end ScopeCursor

end Yurin
