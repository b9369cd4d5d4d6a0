import Yurin.Proofs.Except
import Yurin.Proofs.Tree.Leaves
import Yurin.Proofs.Tree.Whole
import Yurin.Skeleton.Build

/-!
# Building a skeleton

`declarationOf_eq` says what building does with a declaration, whatever its kind: unless a part is
missing, it reads the modifiers, builds the members and makes a declaration of both that shows the
one of the tree (`BuiltBy`). Everything else about building follows from it by induction on the
members.

The only way in which building fails is a modifier of the tree that is none. So a file whose
modifiers are all modifiers has a skeleton: `ofFile_ok`.
-/

namespace Yurin

namespace Declaration

theorem leaves_modifiers (d : Declaration) :
    leaves (modifierNodes d.modifiers) ⊆ leaves [d.node] := by
  cases d with
  | bad => exact List.nil_subset _
  | _ => simp [modifiers, node]

theorem leaves_members (d : Declaration) :
    leaves (declarationNodes d.members) ⊆ leaves [d.node] := by
  intro leaf h
  cases d with
  | data _ _ _ _ body | trait _ _ body | impl _ _ _ _ body =>
    cases body with
    | none => cases h
    | some members =>
      have hleaf : leaf ∈ leaves (declarationNodes members) := h
      simp [node, bodyNode?, hleaf]
  | _ => cases h

end Declaration

namespace Skeleton

/-! ## Indexes -/

namespace Index

@[simp] theorem append_declarations (x y : Index) :
    (x ++ y).declarations = x.declarations ++ y.declarations := rfl

@[simp] theorem append_typeParameters (x y : Index) :
    (x ++ y).typeParameters = x.typeParameters ++ y.typeParameters := rfl

@[simp] theorem append_parameters (x y : Index) :
    (x ++ y).parameters = x.parameters ++ y.parameters := rfl

theorem append_empty (x : Index) : x ++ .empty = x := by
  change append x .empty = x
  simp [append, empty]

end Index

/-! ## What is built of a declaration -/

/-- The index entries of the parameters of a declaration. -/
def parameterIndex (path : Path) (d : Yurin.Declaration) : Index :=
  ⟨[], (typeParametersOf path (some d.typeParameters)).2, (parametersOf path (some d.parameters)).2⟩

/-- A declaration of the skeleton shows the head of one of the tree, and those of its parameters
that have a type. -/
structure Shows (d : Yurin.Declaration) (e : Declaration) : Prop where
  kind : d.kind? = some e.kind
  name : d.name?.map Identifier.name = e.name?
  typeParameters : d.typeParameters.map Identifier.name = e.typeParameters
  parameters : (typedParameters d.parameters).map (·.2) = e.parameters

/-- **A declaration is built by a function** of its modifiers and of what is built of its
members. -/
structure BuiltBy (path : Path) (d : Yurin.Declaration) (keyword : Token)
    (make : List Modifier → List Declaration → Declaration) : Prop where
  word : d.keyword? = some keyword
  shows : ∀ modifiers members, Shows d (make modifiers members)
  members : ∀ modifiers members inner, declarationsOf path 0 d.members = .ok (members, inner) →
    (make modifiers members).members = members
  built : declarationOf path d = (do
    let modifiers ← d.modifiers.mapM modifierOf
    let (members, inner) ← declarationsOf path 0 d.members
    return some ⟨keyword, make modifiers members, parameterIndex path d ++ inner⟩)

theorem bodyOf_eq (path : Path) (body : Option (List Yurin.Declaration)) :
    bodyOf path body = declarationsOf path 0 (body.getD []) := by
  cases body <;> rfl

/-- What has no body is built like what has an empty one. -/
theorem BuiltBy.bodiless {path : Path} {d : Yurin.Declaration} {keyword : Token}
    (make : List Modifier → Declaration) (hword : d.keyword? = some keyword)
    (hshows : ∀ modifiers, Shows d (make modifiers)) (hmembers : d.members = [])
    (hmake : ∀ modifiers, (make modifiers).members = [])
    (hbuilt : declarationOf path d = (do
      let modifiers ← d.modifiers.mapM modifierOf
      return some ⟨keyword, make modifiers, parameterIndex path d⟩)) :
    BuiltBy path d keyword fun modifiers _ => make modifiers where
  word := hword
  shows modifiers _ := hshows modifiers
  members modifiers members inner h := by
    rw [hmembers] at h
    obtain ⟨rfl, -⟩ := Prod.mk.inj (Except.ok.inj h)
    exact hmake modifiers
  built := by
    rw [← Index.append_empty (parameterIndex path d)] at hbuilt
    rw [hbuilt, hmembers]
    rfl

/-- **What building does with a declaration.** One that lacks a part is left out. -/
theorem declarationOf_eq (path : Path) (d : Yurin.Declaration) :
    ¬ d.Complete ∧ declarationOf path d = .ok none ∨
      ∃ keyword make, BuiltBy path d keyword make := by
  have named {i : Option Identifier} {name : Identifier} (h : i = some name) :
      i.map Identifier.name = some name.name := by
    rw [h, Option.map_some]
  have absent {α : Type} {x : Option α} (h : x = none) : ¬ x.isSome = true := by
    rw [h]
    exact Bool.false_ne_true
  cases d with
  | data head flavor ps bindings body =>
    cases hname : head.name with
    | none => exact .inl ⟨fun h => absent hname h.1, by rw [declarationOf, hname]; rfl⟩
    | some name =>
      refine .inr ⟨head.keyword, fun modifiers members => .data modifiers (flavorOf flavor)
        name.name _ _ (typeReferences bindings) members, rfl,
        fun _ _ => ⟨rfl, named hname, rfl, rfl⟩, fun _ _ _ _ => rfl, ?_⟩
      rw [declarationOf, hname, bodyOf_eq]
      rfl
  | trait head inherits body =>
    cases hname : head.name with
    | none => exact .inl ⟨absent hname, by rw [declarationOf, hname]; rfl⟩
    | some name =>
      refine .inr ⟨head.keyword, fun modifiers members => .trait modifiers name.name _
        (typeReferences inherits) members, rfl,
        fun _ _ => ⟨rfl, named hname, rfl, rfl⟩, fun _ _ _ _ => rfl, ?_⟩
      rw [declarationOf, hname, bodyOf_eq]
      rfl
  | typealias head type =>
    rw [declarationOf.eq_def]
    cases hname : head.name with
    | none => exact .inl ⟨fun h => absent hname h.1, by simp only [hname]; rfl⟩
    | some name =>
      cases type with
      | none => exact .inl ⟨fun h => absent rfl h.2, by simp only [hname]; rfl⟩
      | some type =>
        refine .inr ⟨head.keyword, _, .bodiless (fun modifiers => .typealias modifiers name.name _
          (typeReference type)) rfl (fun _ => ⟨rfl, named hname, rfl, rfl⟩) rfl (fun _ => rfl) ?_⟩
        rw [declarationOf.eq_def]
        simp only [hname]
        rfl
  | effect head =>
    cases hname : head.name with
    | none => exact .inl ⟨absent hname, by rw [declarationOf, hname]; rfl⟩
    | some name =>
      refine .inr ⟨head.keyword, _, .bodiless (fun modifiers => .effect modifiers name.name _)
        rfl (fun _ => ⟨rfl, named hname, rfl, rfl⟩) rfl (fun _ => rfl) ?_⟩
      rw [declarationOf, hname]
      rfl
  | impl modifiers keyword dataType traitType body =>
    cases dataType with
    | none => exact .inl ⟨fun h => absent rfl h.1, by rw [declarationOf.eq_def]; rfl⟩
    | some dataType =>
      cases traitType with
      | none => exact .inl ⟨fun h => absent rfl h.2, by rw [declarationOf.eq_def]; rfl⟩
      | some traitType =>
        refine .inr ⟨keyword, fun modifiers members => .impl modifiers (typeReference dataType)
          (typeReference traitType) members, rfl, fun _ _ => ⟨rfl, rfl, rfl, rfl⟩,
          fun _ _ _ _ => rfl, ?_⟩
        rw [declarationOf, bodyOf_eq]
        rfl
  | function head receiver ps returnType effects body exprBody =>
    cases hname : head.name with
    | none => exact .inl ⟨fun h => absent hname h.1, by rw [declarationOf, hname]; rfl⟩
    | some name =>
      refine .inr ⟨head.keyword, _, .bodiless (fun modifiers => .function modifiers
        (receiver.map typeReference) name.name _ _ (returnType.map typeReference)
        (typeReferences effects)) rfl (fun _ => ⟨rfl, named hname, rfl, rfl⟩) rfl (fun _ => rfl) ?_⟩
      rw [declarationOf, hname]
      rfl
  | property head receiver type effects initializer accessors =>
    cases hname : head.name with
    | none => exact .inl ⟨absent hname, by rw [declarationOf, hname]; rfl⟩
    | some name =>
      refine .inr ⟨head.keyword, _, .bodiless (fun modifiers => .property modifiers
        (head.keyword.kind == .keyword .var) (receiver.map typeReference) name.name _
        (type.map typeReference) (typeReferences effects)) rfl
        (fun _ => ⟨rfl, named hname, rfl, rfl⟩) rfl (fun _ => rfl) ?_⟩
      rw [declarationOf, hname]
      rfl
  | bad => exact .inl ⟨id, rfl⟩

/-- A complete declaration is not left out. -/
theorem declarationOf_complete {path : Path} {d : Yurin.Declaration} {found : Option Built}
    (hd : d.Complete) (h : declarationOf path d = .ok found) : ∃ b, found = some b := by
  obtain ⟨hincomplete, -⟩ | ⟨keyword, make, hmade⟩ := declarationOf_eq path d
  · exact absurd hd hincomplete
  · rw [hmade.built] at h
    obtain ⟨ms, -, h⟩ := Except.bind_eq_ok_iff.mp h
    obtain ⟨⟨members, inner⟩, -, h⟩ := Except.bind_eq_ok_iff.mp h
    exact ⟨_, (Except.ok.inj h).symm⟩

/-- **What is built of a declaration** shows it, and has what is built of its members. -/
theorem declarationOf_shows {path : Path} {d : Yurin.Declaration} {b : Built}
    (h : declarationOf path d = .ok (some b)) :
    d.keyword? = some b.keyword ∧ Shows d b.declaration ∧
      ∃ inner, b.inner = parameterIndex path d ++ inner ∧
        declarationsOf path 0 d.members = .ok (b.declaration.members, inner) := by
  obtain ⟨-, hnone⟩ | ⟨keyword, make, hmade⟩ := declarationOf_eq path d
  · rw [hnone] at h
    cases h
  · rw [hmade.built] at h
    obtain ⟨ms, -, h⟩ := Except.bind_eq_ok_iff.mp h
    obtain ⟨⟨members, inner⟩, hmembers, h⟩ := Except.bind_eq_ok_iff.mp h
    obtain rfl := Option.some.inj (Except.ok.inj h)
    exact ⟨hmade.word, hmade.shows _ _, inner, rfl, by rw [hmade.members _ _ _ hmembers, hmembers]⟩

/-! ## Building succeeds -/

/-- The leaves that are kept as modifiers are modifiers. -/
def ProperModifiers (found : List Leaf) : Prop :=
  ∀ t, .modifier t ∈ found → t.kind.isModifier = true

/-- The kinds of modifiers are those that have a modifier in the table. -/
theorem isSome_ofKind? (k : Kind) : (Modifier.ofKind? k).isSome = k.isModifier := by
  cases k with
  | keyword w => cases w <;> decide
  | _ => rfl

theorem modifierOf_ok {t : Token} (h : t.kind.isModifier = true) : ∃ m, modifierOf t = .ok m := by
  rw [← isSome_ofKind?] at h
  obtain ⟨m, hm⟩ := Option.isSome_iff_exists.mp h
  exact ⟨m, by rw [modifierOf, hm]⟩

theorem mapM_modifierOf_ok {ts : List Token} (h : ∀ t ∈ ts, t.kind.isModifier = true) :
    ∃ ms, ts.mapM modifierOf = .ok ms := by
  induction ts with
  | nil => exact ⟨[], rfl⟩
  | cons t rest ih =>
    obtain ⟨m, hm⟩ := modifierOf_ok (h t List.mem_cons_self)
    obtain ⟨ms, hms⟩ := ih fun t ht => h t (List.mem_cons_of_mem _ ht)
    rw [List.mapM_cons, hm, hms]
    exact ⟨m :: ms, rfl⟩

namespace ProperModifiers

variable {d : Yurin.Declaration} {ds : List Yurin.Declaration}

theorem modifiers (h : ProperModifiers (leaves [d.node])) :
    ∃ ms, d.modifiers.mapM modifierOf = .ok ms := by
  refine mapM_modifierOf_ok fun t ht => h t (d.leaves_modifiers ?_)
  rw [modifierNodes_leaves]
  exact List.mem_map_of_mem ht

theorem of_mem (h : ProperModifiers (leaves (declarationNodes ds))) (hd : d ∈ ds) :
    ProperModifiers (leaves [d.node]) := by
  intro t ht
  refine h t ?_
  rw [declarationNodes_eq, leaves_map, List.mem_flatMap]
  exact ⟨d, hd, ht⟩

end ProperModifiers

/-- Building a list of declarations succeeds when it does for each of them. -/
theorem declarationsOf_ok {path : Path} {i : Nat} {ds : List Yurin.Declaration}
    (hds : ∀ d ∈ ds, ∀ path, ∃ found, declarationOf path d = .ok found) :
    ∃ built, declarationsOf path i ds = .ok built := by
  induction ds generalizing i with
  | nil => exact ⟨_, rfl⟩
  | cons d rest ih =>
    have hrest (i : Nat) : ∃ built, declarationsOf path i rest = .ok built :=
      ih fun d hd => hds d (List.mem_cons_of_mem _ hd)
    rw [declarationsOf]
    refine Except.exists_bind_eq_ok (hds d List.mem_cons_self _) fun found => ?_
    cases found with
    | none => exact hrest i
    | some built => exact Except.exists_bind_eq_ok (hrest (i + 1)) fun more => ⟨_, rfl⟩

theorem declarationOf_ok {d : Yurin.Declaration} (h : ProperModifiers (leaves [d.node]))
    (path : Path) : ∃ found, declarationOf path d = .ok found := by
  induction d using Yurin.Declaration.bodyInduction generalizing path with
  | step d ih =>
    obtain ⟨-, hnone⟩ | ⟨keyword, make, hmade⟩ := declarationOf_eq path d
    · exact ⟨none, hnone⟩
    · have hmembers : ProperModifiers (leaves (declarationNodes d.members)) :=
        fun t ht => h t (d.leaves_members ht)
      have hbody : ∃ body, declarationsOf path 0 d.members = .ok body :=
        declarationsOf_ok fun m hm path => ih m hm (hmembers.of_mem hm) path
      rw [hmade.built]
      refine Except.exists_bind_eq_ok h.modifiers fun ms => ?_
      exact Except.exists_bind_eq_ok hbody fun body => ⟨_, rfl⟩

/-- **A file whose modifiers are modifiers has a skeleton.** -/
theorem ofFile_ok {file : SourceFile} (h : ProperModifiers (leaves [file.node])) :
    ∃ built, ofFile file = .ok built := by
  have hfile : ProperModifiers (leaves (declarationNodes file.declarations)) :=
    fun t ht => h t (by simp [SourceFile.node, ht])
  have hbuilt : ∃ built, declarationsOf [] 0 file.declarations = .ok built :=
    declarationsOf_ok fun d hd path => declarationOf_ok (hfile.of_mem hd) path
  exact Except.exists_bind_eq_ok hbuilt fun built => ⟨_, rfl⟩

end Skeleton

end Yurin
