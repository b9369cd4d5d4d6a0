import Yurin.Skeleton.Basic

/-!
# The outline of a package

The types that a package declares at any depth, in the order of their declarations, each named by
the dotted path of the types around it. What stands in an implementation is listed as if it stood
outside it, since an implementation has no name.
-/

namespace Yurin.Skeleton

/-- Whether an outline entry is a data type or alias, or a trait. -/
inductive TypeKind
  | data | trait
  deriving DecidableEq, Repr

namespace TypeKind

/-- The name of a kind of type. -/
def name : TypeKind → String
  | .data => "data"
  | .trait => "trait"

end TypeKind

/-- A type of a package with its dotted path. -/
structure QualifiedType where
  package : Bytes
  name : Bytes
  kind : TypeKind
  deriving DecidableEq, Repr

namespace QualifiedType

/-- The type with the package name in front. -/
def text (q : QualifiedType) : Bytes :=
  if q.package.isEmpty then q.name else q.package ++ utf8 "." ++ q.name

end QualifiedType

mutual

/-- The types in a declaration below the types `above`, as paths of names. -/
def Declaration.types (above : List Bytes) : Declaration → List (List Bytes × TypeKind)
  | .data _ _ name _ _ _ members =>
    (above ++ [name], .data) :: typesOf (above ++ [name]) members
  | .typealias _ name _ _ => [(above ++ [name], .data)]
  | .trait _ name _ _ members => (above ++ [name], .trait) :: typesOf (above ++ [name]) members
  | .impl _ _ _ members => typesOf above members
  | .effect .. | .function .. | .property .. => []

/-- The types in a list of declarations. -/
def typesOf (above : List Bytes) : List Declaration → List (List Bytes × TypeKind)
  | [] => []
  | d :: rest => d.types above ++ typesOf above rest

end

/-- The outline of a package. -/
def Package.outline (p : Package) : List QualifiedType :=
  (typesOf [] p.declarations).map fun (path, kind) => ⟨p.name, Bytes.join (utf8 ".") path, kind⟩

end Yurin.Skeleton
