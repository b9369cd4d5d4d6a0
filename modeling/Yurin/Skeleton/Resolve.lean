import Yurin.Skeleton.Basic

/-!
# Resolving dotted references

A reference `a.b.c` is followed from a package: its first segment names a top-level declaration and
each further one a member of the declaration before. Data types and traits have members that can be
named; functions and properties only through a singleton. The first segment that names nothing ends
the reference, and the segments before it stay resolved.

A reference may also begin with the package name, which is passed over.
-/

namespace Yurin.Skeleton

/-- A segment of a reference and the declaration it names. -/
structure Match where
  segment : Nat
  site : Site
  deriving Repr

/-- The first of the declarations with a name, and its position. -/
def findNamed (name : Bytes) : (i : Nat) → List Declaration → Option (Nat × Declaration)
  | _, [] => none
  | i, d :: rest => if d.name? == some name then some (i, d) else findNamed name (i + 1) rest

/-- The top-level declaration with a name. -/
def Package.lookup (p : Package) (name : Bytes) : Option Site :=
  (findNamed name 0 p.declarations).map fun (i, d) => ⟨[i], d⟩

/-- Whether members of a declaration can be named. -/
def Declaration.isContainer (d : Declaration) : Bool := d.kind == .data || d.kind == .trait

/-- Whether a member can be named only through a singleton. -/
def Declaration.needsSingleton (d : Declaration) : Bool :=
  d.kind == .function || d.kind == .property

namespace Site

/-- The member of a declaration that a name stands for. -/
def member? (container : Site) (name : Bytes) : Option Site :=
  if container.declaration.isContainer then
    match findNamed name 0 container.declaration.members with
    | none => none
    | some (i, d) =>
      if d.needsSingleton && !container.declaration.hasModifier .singleton then none
      else some ⟨container.path ++ [i], d⟩
  else none

/-- The matches of segments as members of a declaration, the first of them being segment `i`. -/
def follow (container : Site) (i : Nat) : List Bytes → List Match
  | [] => []
  | name :: rest =>
    match container.member? name with
    | none => []
    | some site => ⟨i, site⟩ :: follow site (i + 1) rest

end Site

namespace Package

/-- The matches of segments from the top level, the first of them being segment `i`. -/
def resolveFrom (p : Package) (i : Nat) : List Bytes → List Match
  | [] => []
  | name :: rest =>
    match p.lookup name with
    | none => []
    | some site => ⟨i, site⟩ :: site.follow (i + 1) rest

/-- The matches of a reference from the top level. -/
def resolveLocal (p : Package) (segments : List Bytes) : List Match := p.resolveFrom 0 segments

/-- The matches of a reference that begins with the package name; a package without a name has
none. -/
def resolveQualified (p : Package) (segments : List Bytes) : List Match :=
  if !p.nameParts.isEmpty && p.nameParts.isPrefixOf segments then
    p.resolveFrom p.nameParts.length (segments.drop p.nameParts.length)
  else []

end Package

end Yurin.Skeleton
