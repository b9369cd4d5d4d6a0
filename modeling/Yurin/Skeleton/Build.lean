import Yurin.Skeleton.Basic
import Yurin.Text.Quoted

/-!
# Building the skeleton

`ofFile` reads the skeleton off a syntax tree, and with it an `Index` from the declarations and
parameters of the tree to their symbols. A declaration is found in the index by the offset of its
keyword and a parameter by that of its name, since every token has an offset of its own.

Declarations that error recovery left without a name or a required type, and parameters without a
type, are not part of the skeleton: the parser has complained about them. Building fails only on a
modifier that is not one.
-/

namespace Yurin.Skeleton

/-- Why no skeleton could be built. -/
inductive BuildError
  /-- A token in a modifier list that is no modifier. -/
  | unknownModifier (token : Token)
  deriving DecidableEq, Repr

namespace BuildError

/-- The text of a build error. -/
def message : BuildError → Bytes
  | .unknownModifier t =>
    utf8 "unknown modifier: " ++ utf8 t.kind.name ++ utf8 " " ++ quoted t.text ++ utf8 " at "
      ++ intText t.line ++ utf8 ":" ++ intText t.column

end BuildError

/-- The symbols of the declarations and parameters of a tree, by offset. -/
structure Index where
  declarations : List (Int × Site)
  typeParameters : List (Int × Symbol)
  parameters : List (Int × Symbol)

namespace Index

/-- The index of nothing. -/
def empty : Index := ⟨[], [], []⟩

/-- Two indexes together. -/
def append (x y : Index) : Index :=
  ⟨x.declarations ++ y.declarations, x.typeParameters ++ y.typeParameters,
   x.parameters ++ y.parameters⟩

instance : Append Index := ⟨append⟩

/-- The number of indexed declarations. -/
def size (x : Index) : Nat := x.declarations.length

/-- The declaration built from the one with this keyword. -/
def declaration? (x : Index) (keyword : Token) : Option Site := x.declarations.lookup keyword.start

/-- The type parameter built from this name. -/
def typeParameter? (x : Index) (name : Identifier) : Option Symbol :=
  x.typeParameters.lookup name.token.start

/-- The value parameter built from this name. -/
def parameter? (x : Index) (name : Identifier) : Option Symbol :=
  x.parameters.lookup name.token.start

end Index

mutual

/-- The reference that a written type makes; parentheses do not count. -/
def typeReference : TypeExpr → TypeReference
  | .parenthesized inner => typeReference inner
  | .nothing _ => .nothing
  | .dynamic _ => .dynamic
  | .regular existential name arguments nullable =>
    .regular existential name.segments (typeReferences arguments) nullable

/-- The references that written types make. -/
def typeReferences : List TypeExpr → List TypeReference
  | [] => []
  | t :: rest => typeReference t :: typeReferences rest

end

/-- The modifier that a token stands for. -/
def modifierOf (token : Token) : Except BuildError Modifier :=
  match Modifier.ofKind? token.kind with
  | some m => .ok m
  | none => .error (.unknownModifier token)

/-- The flavor that the word in front of `data` stands for. -/
def flavorOf (word : Option Token) : Flavor :=
  match word.map Token.kind with
  | some (.keyword .val) => .value
  | some (.keyword .ref) => .reference
  | _ => .none

/-- The type parameters of the declaration at `owner`, with their index entries. -/
def typeParametersOf (owner : Path) (names : Option (List Identifier)) :
    List Bytes × List (Int × Symbol) :=
  let names := names.getD []
  (names.map Identifier.name,
   names.mapIdx fun i n => (n.token.start, .typeParameter owner i n.name))

/-- The value parameters that have a type. -/
def typedParameters : List Yurin.Parameter → List (Identifier × Parameter)
  | [] => []
  | .mk name (some type) _ :: rest =>
    (name, ⟨name.name, typeReference type⟩) :: typedParameters rest
  | .mk _ none _ :: rest => typedParameters rest

/-- The value parameters of the declaration at `owner`, with their index entries. -/
def parametersOf (owner : Path) (parameters : Option (List Yurin.Parameter)) :
    List Parameter × List (Int × Symbol) :=
  let typed := typedParameters (parameters.getD [])
  (typed.map (·.2), typed.mapIdx fun i (name, p) => (name.token.start, .parameter owner i p))

/-- A declaration built at a path, with the index of what is inside it. -/
structure Built where
  keyword : Token
  declaration : Declaration
  inner : Index

mutual

/-- The declaration at a path, when it has the parts that the skeleton needs. -/
def declarationOf (path : Path) : Yurin.Declaration → Except BuildError (Option Built)
  | .data head flavor parameters bindings body =>
    match head.name with
    | none => return none
    | some name => do
      let modifiers ← head.modifiers.mapM modifierOf
      let (types, typeEntries) := typeParametersOf path head.typeParameters
      let (values, valueEntries) := parametersOf path parameters
      let (members, inner) ← bodyOf path body
      return some ⟨head.keyword,
        .data modifiers (flavorOf flavor) name.name types values (typeReferences bindings) members,
        ⟨[], typeEntries, valueEntries⟩ ++ inner⟩
  | .trait head inherits body =>
    match head.name with
    | none => return none
    | some name => do
      let modifiers ← head.modifiers.mapM modifierOf
      let (types, typeEntries) := typeParametersOf path head.typeParameters
      let (members, inner) ← bodyOf path body
      return some ⟨head.keyword,
        .trait modifiers name.name types (typeReferences inherits) members,
        ⟨[], typeEntries, []⟩ ++ inner⟩
  | .typealias head type =>
    match head.name, type with
    | some name, some type => do
      let modifiers ← head.modifiers.mapM modifierOf
      let (types, typeEntries) := typeParametersOf path head.typeParameters
      return some ⟨head.keyword, .typealias modifiers name.name types (typeReference type),
        ⟨[], typeEntries, []⟩⟩
    | _, _ => return none
  | .effect head =>
    match head.name with
    | none => return none
    | some name => do
      let modifiers ← head.modifiers.mapM modifierOf
      let (types, typeEntries) := typeParametersOf path head.typeParameters
      return some ⟨head.keyword, .effect modifiers name.name types, ⟨[], typeEntries, []⟩⟩
  | .impl mods keyword dataType traitType body =>
    match dataType, traitType with
    | some dataType, some traitType => do
      let modifiers ← mods.mapM modifierOf
      let (members, inner) ← bodyOf path body
      return some ⟨keyword,
        .impl modifiers (typeReference dataType) (typeReference traitType) members, inner⟩
    | _, _ => return none
  | .function head receiver parameters returnType effects _ _ =>
    match head.name with
    | none => return none
    | some name => do
      let modifiers ← head.modifiers.mapM modifierOf
      let (types, typeEntries) := typeParametersOf path head.typeParameters
      let (values, valueEntries) := parametersOf path parameters
      return some ⟨head.keyword,
        .function modifiers (receiver.map typeReference) name.name types values
          (returnType.map typeReference) (typeReferences effects),
        ⟨[], typeEntries, valueEntries⟩⟩
  | .property head receiver type effects _ _ =>
    match head.name with
    | none => return none
    | some name => do
      let modifiers ← head.modifiers.mapM modifierOf
      let (types, typeEntries) := typeParametersOf path head.typeParameters
      return some ⟨head.keyword,
        .property modifiers (head.keyword.kind == .keyword .var) (receiver.map typeReference)
          name.name types (type.map typeReference) (typeReferences effects),
        ⟨[], typeEntries, []⟩⟩
  | .bad .. => return none

/-- The declarations below a path, the first of them at position `i`. -/
def declarationsOf (path : Path) (i : Nat) :
    List Yurin.Declaration → Except BuildError (List Declaration × Index)
  | [] => return ([], .empty)
  | d :: rest => do
    match ← declarationOf (path ++ [i]) d with
    | none => declarationsOf path i rest
    | some built =>
      let (declarations, index) ← declarationsOf path (i + 1) rest
      let site : Site := ⟨path ++ [i], built.declaration⟩
      return (built.declaration :: declarations,
        (⟨[(built.keyword.start, site)], [], []⟩ ++ built.inner : Index) ++ index)

/-- The declarations of a type body. -/
def bodyOf (path : Path) :
    Option (List Yurin.Declaration) → Except BuildError (List Declaration × Index)
  | none => return ([], .empty)
  | some members => declarationsOf path 0 members

end

/-- The skeleton of a file, with its index. -/
def ofFile (file : SourceFile) : Except BuildError (Package × Index) := do
  let (declarations, index) ← declarationsOf [] 0 file.declarations
  return (⟨file.packageParts, declarations⟩, index)

end Yurin.Skeleton
