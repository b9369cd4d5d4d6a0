import Yurin.Tree.Basic

/-!
# The declaration skeleton

The skeleton of a file is what its declarations announce: names, modifiers, parameters and types,
nested as they are written, without bodies and expressions. A declaration in it is addressed by a
`Path`, and a `Site` is a declaration together with its path, which tells it from every other one.
-/

namespace Yurin.Skeleton

/-- The modifiers of declarations. -/
inductive Modifier
  | open_ | sealed | abstract | operator | singleton | impl | public_ | restricted | internal
  | private_
  deriving DecidableEq, Repr

namespace Modifier

/-- Every modifier, in declaration order. -/
def all : List Modifier :=
  [.open_, .sealed, .abstract, .operator, .singleton, .impl, .public_, .restricted, .internal,
   .private_]

/-- The name of a modifier. -/
def name : Modifier → String
  | .open_ => "Open"
  | .sealed => "Sealed"
  | .abstract => "Abstract"
  | .operator => "Operator"
  | .singleton => "Singleton"
  | .impl => "Impl"
  | .public_ => "Public"
  | .restricted => "Restricted"
  | .internal => "Internal"
  | .private_ => "Private"

/-- The name of the modifier with a number. -/
def nameOfCode (code : Int) : String :=
  match code with
  | .ofNat n => ((all[n]?).map name).getD "Modifier(?)"
  | .negSucc _ => "Modifier(?)"

/-- The reserved word of a modifier. -/
def keyword : Modifier → Keyword
  | .open_ => .open_
  | .sealed => .sealed
  | .abstract => .abstract
  | .operator => .operator
  | .singleton => .singleton
  | .impl => .impl
  | .public_ => .public_
  | .restricted => .restricted
  | .internal => .internal
  | .private_ => .private_

/-- The modifier that a token of a kind stands for. -/
def ofKind? (kind : Kind) : Option Modifier := all.find? fun m => .keyword m.keyword == kind

end Modifier

/-- Whether a data type is declared as a value, as a reference, or neither. -/
inductive Flavor
  | none | value | reference
  deriving DecidableEq, Repr

namespace Flavor

/-- The name of a flavor. -/
def name : Flavor → String
  | .none => "None"
  | .value => "Value"
  | .reference => "Reference"

end Flavor

/-- A type as a declaration refers to it. -/
inductive TypeReference
  | regular (existential : Bool) (segments : List Bytes) (arguments : List TypeReference)
      (nullable : Bool)
  | dynamic
  | nothing
  deriving Repr

/-- A value parameter. -/
structure Parameter where
  name : Bytes
  type : TypeReference
  deriving Repr

/-- A declaration of the skeleton. -/
inductive Declaration
  | data (modifiers : List Modifier) (flavor : Flavor) (name : Bytes)
      (typeParameters : List Bytes) (parameters : List Parameter) (bindings : List TypeReference)
      (members : List Declaration)
  | trait (modifiers : List Modifier) (name : Bytes) (typeParameters : List Bytes)
      (inherits : List TypeReference) (members : List Declaration)
  | typealias (modifiers : List Modifier) (name : Bytes) (typeParameters : List Bytes)
      (expanded : TypeReference)
  | effect (modifiers : List Modifier) (name : Bytes) (typeParameters : List Bytes)
  | impl (modifiers : List Modifier) (dataType : TypeReference) (traitType : TypeReference)
      (members : List Declaration)
  | function (modifiers : List Modifier) (receiver : Option TypeReference) (name : Bytes)
      (typeParameters : List Bytes) (parameters : List Parameter)
      (returns : Option TypeReference) (effects : List TypeReference)
  | property (modifiers : List Modifier) (writable : Bool) (receiver : Option TypeReference)
      (name : Bytes) (typeParameters : List Bytes) (type : Option TypeReference)
      (effects : List TypeReference)
  deriving Repr

/-- The skeleton of a file. -/
structure Package where
  nameParts : List Bytes
  declarations : List Declaration
  deriving Repr

/-- The place of a declaration: its index at the top level, then among the members of each
declaration around it. -/
abbrev Path := List Nat

/-- A declaration and its place. -/
structure Site where
  path : Path
  declaration : Declaration
  deriving Repr

/-- What a name can stand for. -/
inductive Symbol
  | declaration (site : Site)
  | typeParameter (owner : Path) (position : Nat) (name : Bytes)
  | parameter (owner : Path) (position : Nat) (parameter : Parameter)
  /-- A type parameter that belongs to no declaration. -/
  | detached (name : Bytes)
  deriving Repr

namespace Declaration

/-- The kind of a declaration. -/
def kind : Declaration → DeclarationKind
  | .data .. => .data
  | .trait .. => .trait
  | .typealias .. => .typealias
  | .effect .. => .effect
  | .impl .. => .impl
  | .function .. => .function
  | .property .. => .property

/-- The modifiers of a declaration, as written. -/
def modifiers : Declaration → List Modifier
  | .data ms .. | .trait ms .. | .typealias ms .. | .effect ms .. | .impl ms .. | .function ms ..
  | .property ms .. => ms

/-- Whether a declaration has a modifier. -/
def hasModifier (d : Declaration) (m : Modifier) : Bool := d.modifiers.contains m

/-- The name of a declaration; an implementation has none. -/
def name? : Declaration → Option Bytes
  | .data _ _ n .. | .trait _ n .. | .typealias _ n .. | .effect _ n .. | .function _ _ n ..
  | .property _ _ _ n .. => some n
  | .impl .. => none

/-- The members of a data type, trait or implementation. -/
def members : Declaration → List Declaration
  | .data _ _ _ _ _ _ ms | .trait _ _ _ _ ms | .impl _ _ _ ms => ms
  | _ => []

/-- The type parameters of a declaration. -/
def typeParameters : Declaration → List Bytes
  | .data _ _ _ ts .. | .trait _ _ ts .. | .typealias _ _ ts .. | .effect _ _ ts
  | .function _ _ _ ts .. | .property _ _ _ _ ts .. => ts
  | .impl .. => []

/-- The value parameters of a data type or function. -/
def parameters : Declaration → List Parameter
  | .data _ _ _ _ ps .. | .function _ _ _ _ ps .. => ps
  | _ => []

end Declaration

namespace Package

/-- The skeleton of an empty file. -/
def empty : Package := ⟨[], []⟩

/-- The package name with dots. -/
def name (p : Package) : Bytes := Bytes.join (utf8 ".") p.nameParts

/-- Whether the parts are the package name. -/
def qualifies (p : Package) (parts : List Bytes) : Bool := p.nameParts == parts

end Package

/-- The declaration that a path leads to from a list of declarations, if there is one. -/
def declarationAt? (declarations : List Declaration) : Path → Option Declaration
  | [] => none
  | [i] => declarations[i]?
  | i :: rest => declarations[i]?.bind fun d => declarationAt? d.members rest

/-- The declaration of a package at a path, if there is one. -/
def Package.site? (p : Package) (path : Path) : Option Site :=
  (declarationAt? p.declarations path).map (⟨path, ·⟩)

mutual

/-- A type reference as it is written. -/
def TypeReference.text : TypeReference → Bytes
  | .regular existential segments arguments nullable =>
    (if existential then utf8 "exist " else []) ++ Bytes.join (utf8 ".") segments
      ++ (if arguments.isEmpty then []
          else utf8 "<" ++ Bytes.join (utf8 ", ") (typeTexts arguments) ++ utf8 ">")
      ++ (if nullable then utf8 "?" else [])
  | .dynamic => utf8 "dynamic"
  | .nothing => utf8 "Nothing"

/-- Type references as they are written. -/
def typeTexts : List TypeReference → List Bytes
  | [] => []
  | t :: rest => t.text :: typeTexts rest

end

end Yurin.Skeleton
