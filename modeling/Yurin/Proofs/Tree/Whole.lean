import Yurin.Tree.Basic

/-!
# Whole declarations

A declaration is `Complete` when it has every part that its kind asks for, and `Whole` when it is
complete and everything declared in its body is whole. The `landmarks` of a declaration are its
keyword and the names of its parameters, with those of everything declared in its body.
-/

namespace Yurin

namespace Parameter

/-- The name of a value parameter. -/
def name : Parameter → Identifier
  | .mk name _ _ => name

/-- The type of a value parameter, if it has one. -/
def type? : Parameter → Option TypeExpr
  | .mk _ type _ => type

end Parameter

namespace Declaration

/-- The kind of a declaration. -/
def kind? : Declaration → Option DeclarationKind
  | .data .. => some .data
  | .trait .. => some .trait
  | .typealias .. => some .typealias
  | .effect .. => some .effect
  | .impl .. => some .impl
  | .function .. => some .function
  | .property .. => some .property
  | .bad .. => none

/-- The word that introduces a declaration. -/
def keyword? : Declaration → Option Token
  | .data head .. | .trait head .. | .typealias head .. | .effect head | .function head ..
  | .property head .. => some head.keyword
  | .impl _ keyword .. => some keyword
  | .bad .. => none

/-- The modifiers of a declaration, as written. -/
def modifiers : Declaration → List Token
  | .data head .. | .trait head .. | .typealias head .. | .effect head | .function head ..
  | .property head .. => head.modifiers
  | .impl modifiers .. => modifiers
  | .bad .. => []

/-- The name of a declaration. -/
def name? : Declaration → Option Identifier
  | .data head .. | .trait head .. | .typealias head .. | .effect head | .function head ..
  | .property head .. => head.name
  | .impl .. | .bad .. => none

/-- The type parameters of a declaration. -/
def typeParameters : Declaration → List Identifier
  | .data head .. | .trait head .. | .typealias head .. | .effect head | .function head ..
  | .property head .. => head.typeParameters.getD []
  | .impl .. | .bad .. => []

/-- The value parameters of a data type or function. -/
def parameters : Declaration → List Parameter
  | .data _ _ ps .. | .function _ _ ps .. => ps.getD []
  | _ => []

/-- What is declared in the body of a data type, trait or implementation. -/
def members : Declaration → List Declaration
  | .data _ _ _ _ body | .trait _ _ body | .impl _ _ _ _ body => body.getD []
  | _ => []

theorem sizeOf_lt_of_mem {d m : Declaration} (h : m ∈ d.members) : sizeOf m < sizeOf d := by
  have inBody {body : Option (List Declaration)} (hm : m ∈ body.getD []) :
      sizeOf m < sizeOf body := by
    cases body with
    | none => cases hm
    | some members =>
      have hlt : sizeOf m < sizeOf members := List.sizeOf_lt_of_mem hm
      simp only [Option.some.sizeOf_spec]
      omega
  cases d with
  | data _ _ _ _ body | trait _ _ body | impl _ _ _ _ body =>
    have hlt : sizeOf m < sizeOf body := inBody h
    simp only [data.sizeOf_spec, trait.sizeOf_spec, impl.sizeOf_spec]
    omega
  | _ => cases h

/-- What holds of a declaration when it holds of its members, holds of every declaration. -/
@[elab_as_elim]
theorem bodyInduction {motive : Declaration → Prop}
    (step : ∀ d, (∀ m ∈ d.members, motive m) → motive d) (d : Declaration) : motive d :=
  step d fun m _ => bodyInduction step m
termination_by sizeOf d
decreasing_by exact sizeOf_lt_of_mem ‹_›

/-- A declaration has the parts that its kind asks for. -/
def Complete : Declaration → Prop
  | .data head _ ps .. | .function head _ ps .. =>
    head.name.isSome = true ∧ ∀ p ∈ ps.getD [], p.type?.isSome = true
  | .trait head .. | .effect head | .property head .. => head.name.isSome = true
  | .typealias head type => head.name.isSome = true ∧ type.isSome = true
  | .impl _ _ dataType traitType _ => dataType.isSome = true ∧ traitType.isSome = true
  | .bad .. => False

/-- The value parameters of a complete declaration have types. -/
theorem Complete.typed {d : Declaration} (h : d.Complete) :
    ∀ p ∈ d.parameters, p.type?.isSome = true := by
  cases d with
  | data | function => exact h.2
  | _ => exact nofun

/-- **A declaration is whole**: nothing is missing from it, nor from what its body declares. -/
inductive Whole : Declaration → Prop
  | intro {d : Declaration} (complete : d.Complete) (members : ∀ m ∈ d.members, m.Whole) : d.Whole

/-- The keyword of a declaration and the names of its parameters, in the order of the source. -/
def ownLandmarks (d : Declaration) : List Token :=
  d.keyword?.toList ++ d.typeParameters.map Identifier.token
    ++ d.parameters.map fun p => p.name.token

end Declaration

mutual

/-- The landmarks of a declaration and of what its body declares. -/
def Declaration.landmarks : Declaration → List Token
  | .data head flavor parameters bindings body =>
    (Declaration.data head flavor parameters bindings body).ownLandmarks ++ bodyLandmarks body
  | .trait head inherits body =>
    (Declaration.trait head inherits body).ownLandmarks ++ bodyLandmarks body
  | .impl modifiers keyword dataType traitType body =>
    (Declaration.impl modifiers keyword dataType traitType body).ownLandmarks ++ bodyLandmarks body
  | d => d.ownLandmarks

/-- The landmarks of declarations. -/
def landmarksOf : List Declaration → List Token
  | [] => []
  | d :: rest => d.landmarks ++ landmarksOf rest

/-- The landmarks of a body. -/
def bodyLandmarks : Option (List Declaration) → List Token
  | none => []
  | some members => landmarksOf members

end

theorem landmarksOf_eq (ds : List Declaration) :
    landmarksOf ds = ds.flatMap Declaration.landmarks := by
  induction ds with
  | nil => rfl
  | cons d rest ih => rw [landmarksOf, ih, List.flatMap_cons]

theorem bodyLandmarks_eq (body : Option (List Declaration)) :
    bodyLandmarks body = landmarksOf (body.getD []) := by
  cases body <;> rfl

/-- The landmarks of a declaration are its own, and then those of its members. -/
theorem Declaration.landmarks_eq (d : Declaration) :
    d.landmarks = d.ownLandmarks ++ landmarksOf d.members := by
  cases d with
  | data | trait | impl => rw [landmarks, bodyLandmarks_eq]; rfl
  | _ => simp [landmarks, members, landmarksOf]

end Yurin
