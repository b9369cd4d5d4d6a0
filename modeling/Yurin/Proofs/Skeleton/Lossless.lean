import Mathlib.Data.List.Forall2
import Yurin.Proofs.Engine.Calls
import Yurin.Proofs.Parser.WholeDeclarations
import Yurin.Proofs.Skeleton.Sites

/-!
# Nothing is lost from a clean source

Building a skeleton leaves out what error recovery left incomplete. So where the tree is whole, the
skeleton shows all of it.

* `Mirrors`: a declaration of the skeleton shows one of the tree, with its kind, name, parameters
  and members, one for one and in the same order.
* `Reachable`: a declaration stands at a path below the top level of the tree, through the bodies of
  data types, traits and implementations.
* `declarationOf_announces`: what building does with a declaration that is complete.

Result: `ofFile_lossless`. When a source is parsed without a complaint, its skeleton mirrors its
tree, every declaration and every parameter of the tree is found in the index, and the index holds
as many declarations as the skeleton.
-/

namespace Yurin.Skeleton

/-! ## The shape of a skeleton -/

mutual

/-- The number of declarations in a declaration, itself among them. -/
def Declaration.size : Declaration → Nat
  | .data _ _ _ _ _ _ members | .trait _ _ _ _ members | .impl _ _ _ members =>
    sizeOfAll members + 1
  | _ => 1

/-- The number of declarations in a list of declarations. -/
def sizeOfAll : List Declaration → Nat
  | [] => 0
  | d :: rest => d.size + sizeOfAll rest

end

theorem Declaration.size_eq (d : Declaration) : d.size = sizeOfAll d.members + 1 := by
  cases d <;> rfl

/-- A parameter of the skeleton shows one of the tree. -/
structure MirrorsParameter (p : Yurin.Parameter) (q : Parameter) : Prop where
  name : p.name.name = q.name
  type : p.type?.map typeReference = some q.type

/-- A declaration of the skeleton announces what one of the tree does. -/
structure Announces (d : Yurin.Declaration) (e : Declaration) : Prop where
  kind : d.kind? = some e.kind
  name : d.name?.map Identifier.name = e.name?
  typeParameters : d.typeParameters.map Identifier.name = e.typeParameters
  parameters : List.Forall₂ MirrorsParameter d.parameters e.parameters

/-- **A declaration of the skeleton mirrors one of the tree**, member for member. -/
inductive Mirrors : Yurin.Declaration → Declaration → Prop
  | intro {d : Yurin.Declaration} {e : Declaration} (announces : Announces d e)
      (members : List.Forall₂ Mirrors d.members e.members) : Mirrors d e

/-- **A declaration stands at a path** below a list of declarations. -/
inductive Reachable (top : List Yurin.Declaration) : Path → Yurin.Declaration → Prop
  | top {i : Nat} {d : Yurin.Declaration} (h : top[i]? = some d) : Reachable top [i] d
  | member {path : Path} {d m : Yurin.Declaration} {i : Nat} (hd : Reachable top path d)
      (h : d.members[i]? = some m) : Reachable top (path ++ [i]) m

/-! ## Indexes -/

namespace Index

/-- One index holds the entries of another. -/
structure Within (x y : Index) : Prop where
  declarations : x.declarations ⊆ y.declarations
  typeParameters : x.typeParameters ⊆ y.typeParameters
  parameters : x.parameters ⊆ y.parameters

namespace Within

variable {x y z : Index}

theorem trans (h : x.Within y) (h' : y.Within z) : x.Within z :=
  ⟨List.Subset.trans h.1 h'.1, List.Subset.trans h.2 h'.2, List.Subset.trans h.3 h'.3⟩

theorem append_left (x y : Index) : x.Within (x ++ y) :=
  ⟨List.subset_append_left _ _, List.subset_append_left _ _, List.subset_append_left _ _⟩

theorem append_right (x y : Index) : y.Within (x ++ y) :=
  ⟨List.subset_append_right _ _, List.subset_append_right _ _, List.subset_append_right _ _⟩

end Within

end Index

/-- The entry of a key that occurs once is found. -/
theorem lookup_of_mem {β : Type} {entries : List (Int × β)} {key : Int} {value : β}
    (hkeys : (entries.map (·.1)).Pairwise (· < ·)) (h : (key, value) ∈ entries) :
    entries.lookup key = some value := by
  induction entries with
  | nil => cases h
  | cons entry rest ih =>
    obtain ⟨first, found⟩ := entry
    rw [List.map_cons, List.pairwise_cons] at hkeys
    rw [List.lookup_cons]
    rcases List.mem_cons.mp h with heq | h
    · obtain ⟨rfl, rfl⟩ := Prod.mk.inj heq
      simp
    · have hlt := hkeys.1 key (List.mem_map_of_mem h)
      have hne : (key == first) = false := beq_eq_false_iff_ne.mpr (Int.ne_of_gt hlt)
      rw [hne]
      exact ih hkeys.2 h

/-! ## Building a complete declaration -/

/-- Parameters that have types are all kept, in their order. -/
theorem typedParameters_mirror {ps : List Yurin.Parameter}
    (h : ∀ p ∈ ps, p.type?.isSome = true) :
    List.Forall₂ (fun p typed => typed.1 = p.name ∧ MirrorsParameter p typed.2) ps
      (typedParameters ps) := by
  induction ps with
  | nil => exact .nil
  | cons p rest ih =>
    obtain ⟨name, type, default⟩ := p
    obtain ⟨type, rfl⟩ := Option.isSome_iff_exists.mp (h _ List.mem_cons_self)
    exact .cons ⟨rfl, rfl, rfl⟩ (ih fun p hp => h p (List.mem_cons_of_mem _ hp))

/-- **Building a complete declaration** announces it, and goes on with its members. -/
theorem declarationOf_announces {path : Path} {d : Yurin.Declaration} {found : Option Built}
    (hd : d.Complete) (h : declarationOf path d = .ok found) :
    ∃ keyword e inner, found = some ⟨keyword, e, parameterIndex path d ++ inner⟩ ∧
      d.keyword? = some keyword ∧ Announces d e ∧
      declarationsOf path 0 d.members = .ok (e.members, inner) := by
  obtain ⟨⟨keyword, e, index⟩, rfl⟩ := declarationOf_complete hd h
  obtain ⟨hkeyword, hshows, inner, rfl, hmembers⟩ := declarationOf_shows h
  have hparameters : List.Forall₂ MirrorsParameter d.parameters e.parameters := by
    rw [← hshows.parameters, List.forall₂_map_right_iff]
    exact (typedParameters_mirror hd.typed).imp fun _ _ h => h.2
  exact ⟨keyword, e, inner, rfl, hkeyword,
    ⟨hshows.kind, hshows.name, hshows.typeParameters, hparameters⟩, hmembers⟩

/-! ## Whole trees -/

/-- The index of a declaration built at a path: its own entry, and what is inside it. -/
def Built.entries (b : Built) (path : Path) : Index :=
  ⟨[(b.keyword.start, ⟨path, b.declaration⟩)], [], []⟩ ++ b.inner

/-- **What is built of declarations keeps them all**: the skeleton mirrors them, the index holds as
many declarations, and every entry is found by a landmark. -/
structure Keeps (ds : List Yurin.Declaration) (es : List Declaration) (index : Index) : Prop where
  mirrors : List.Forall₂ Mirrors ds es
  size : index.size = sizeOfAll es
  declarations : (index.declarations.map (·.1)).Sublist ((landmarksOf ds).map Token.start)
  typeParameters : (index.typeParameters.map (·.1)).Sublist ((landmarksOf ds).map Token.start)
  parameters : (index.parameters.map (·.1)).Sublist ((landmarksOf ds).map Token.start)

theorem Keeps.cons {d : Yurin.Declaration} {ds : List Yurin.Declaration} {e : Declaration}
    {es : List Declaration} {x y : Index} (h : Keeps [d] [e] x) (h' : Keeps ds es y) :
    Keeps (d :: ds) (e :: es) (x ++ y) := by
  have hsplit : (landmarksOf (d :: ds)).map Token.start =
      (landmarksOf [d]).map Token.start ++ (landmarksOf ds).map Token.start := by
    simp [landmarksOf]
  have hsize : x.size = e.size := by simpa [sizeOfAll] using h.size
  refine ⟨.cons (List.forall₂_cons.mp h.mirrors).1 h'.mirrors, ?_, ?_, ?_, ?_⟩
  · rw [sizeOfAll, ← hsize, ← h'.size]
    exact List.length_append
  · rw [hsplit, Index.append_declarations, List.map_append]
    exact h.declarations.append h'.declarations
  · rw [hsplit, Index.append_typeParameters, List.map_append]
    exact h.typeParameters.append h'.typeParameters
  · rw [hsplit, Index.append_parameters, List.map_append]
    exact h.parameters.append h'.parameters

/-- A list of declarations is kept when each of them is. -/
theorem declarationsOf_keeps {path : Path} {i : Nat} {ds : List Yurin.Declaration}
    {es : List Declaration} {index : Index}
    (hds : ∀ d ∈ ds, ∀ path found, declarationOf path d = .ok found →
      ∃ built, found = some built ∧ Keeps [d] [built.declaration] (built.entries path))
    (h : declarationsOf path i ds = .ok (es, index)) : Keeps ds es index := by
  induction ds generalizing i es index with
  | nil =>
    obtain ⟨rfl, rfl⟩ := Prod.mk.inj (Except.ok.inj h)
    exact ⟨.nil, rfl, .slnil, .slnil, .slnil⟩
  | cons d rest ih =>
    rw [declarationsOf] at h
    obtain ⟨found, hd, h⟩ := Except.bind_eq_ok_iff.mp h
    obtain ⟨built, rfl, hkeeps⟩ := hds d List.mem_cons_self _ _ hd
    obtain ⟨⟨more, index'⟩, hrest, h⟩ := Except.bind_eq_ok_iff.mp h
    obtain ⟨rfl, rfl⟩ := Prod.mk.inj (Except.ok.inj h)
    exact hkeeps.cons (ih (fun d hd => hds d (List.mem_cons_of_mem _ hd)) hrest)

theorem map_fst_mapIdx {α β : Type} (key : α → Int) (value : Nat → α → β) (xs : List α) :
    (xs.mapIdx fun i x => (key x, value i x)).map (·.1) = xs.map key := by
  apply List.ext_getElem?
  intro i
  simp [Function.comp_def]

/-- The entries of the parameters of a declaration are found by the names of the parameters. -/
theorem parameterIndex_keys (path : Path) {d : Yurin.Declaration} (hd : d.Complete) :
    (parameterIndex path d).typeParameters.map (·.1) =
        (d.typeParameters.map Identifier.token).map Token.start ∧
      (parameterIndex path d).parameters.map (·.1) =
        (d.parameters.map fun p => p.name.token).map Token.start := by
  have hnames : (typedParameters d.parameters).map (fun typed => typed.1.token.start) =
      d.parameters.map fun p => p.name.token.start := by
    rw [← List.forall₂_eq_eq_eq, List.forall₂_map_left_iff, List.forall₂_map_right_iff]
    exact (typedParameters_mirror hd.typed).flip.imp fun _ _ h => by rw [h.1]
  constructor
  · rw [List.map_map]
    exact map_fst_mapIdx ..
  · rw [List.map_map]
    exact (map_fst_mapIdx ..).trans hnames

/-- **A whole declaration is kept.** -/
theorem declarationOf_keeps {d : Yurin.Declaration} (hd : d.Whole) :
    ∀ path found, declarationOf path d = .ok found →
      ∃ built, found = some built ∧ Keeps [d] [built.declaration] (built.entries path) := by
  induction hd with
  | @intro d complete _ ih =>
    intro path found h
    obtain ⟨keyword, e, inner, rfl, hkeyword, hann, hmembers⟩ := declarationOf_announces complete h
    have hkeeps := declarationsOf_keeps ih hmembers
    obtain ⟨htypes, hvalues⟩ := parameterIndex_keys path complete
    have hmarks : (landmarksOf [d]).map Token.start =
        keyword.start :: ((d.typeParameters.map Identifier.token).map Token.start ++
          ((d.parameters.map fun p => p.name.token).map Token.start ++
            (landmarksOf d.members).map Token.start)) := by
      simp [landmarksOf, Declaration.landmarks_eq, Declaration.ownLandmarks, hkeyword]
    refine ⟨_, rfl, .cons (.intro hann hkeeps.mirrors) .nil, ?_, ?_, ?_, ?_⟩
    · have hinner : inner.declarations.length = sizeOfAll e.members := hkeeps.size
      simp [Built.entries, Index.size, parameterIndex, sizeOfAll, Declaration.size_eq, hinner,
        Nat.add_comm]
    · rw [hmarks]
      refine .cons_cons _ (hkeeps.declarations.trans ?_)
      exact (List.sublist_append_right _ _).trans (List.sublist_append_right _ _)
    · rw [hmarks, Built.entries, Index.append_typeParameters, Index.append_typeParameters,
        List.nil_append, List.map_append, htypes]
      refine (List.Sublist.append (.refl _) (hkeeps.typeParameters.trans ?_)).cons _
      exact List.sublist_append_right _ _
    · rw [hmarks, Built.entries, Index.append_parameters, Index.append_parameters,
        List.nil_append, List.map_append, hvalues]
      refine (List.Sublist.trans ?_ (List.sublist_append_right _ _)).cons _
      exact .append (.refl _) hkeeps.parameters

/-! ## Reaching a declaration -/

/-- The declaration at a position is built there, and its entries are in the index. -/
theorem declarationsOf_get {path : Path} {i j : Nat} {ds : List Yurin.Declaration}
    {es : List Declaration} {index : Index} {d : Yurin.Declaration}
    (hds : ∀ d ∈ ds, d.Complete) (h : declarationsOf path i ds = .ok (es, index))
    (hd : ds[j]? = some d) :
    ∃ built, declarationOf (path ++ [i + j]) d = .ok (some built) ∧
      es[j]? = some built.declaration ∧ (built.entries (path ++ [i + j])).Within index := by
  induction ds generalizing i j es index with
  | nil => cases hd
  | cons first rest ih =>
    rw [declarationsOf] at h
    obtain ⟨found, hfirst, h⟩ := Except.bind_eq_ok_iff.mp h
    obtain ⟨keyword, e, inner, rfl, -⟩ :=
      declarationOf_announces (hds first List.mem_cons_self) hfirst
    obtain ⟨⟨more, index'⟩, hrest, h⟩ := Except.bind_eq_ok_iff.mp h
    obtain ⟨rfl, rfl⟩ := Prod.mk.inj (Except.ok.inj h)
    cases j with
    | zero =>
      obtain rfl : first = d := by simpa using hd
      exact ⟨_, hfirst, rfl, .append_left _ _⟩
    | succ j =>
      obtain ⟨built, hbuilt, hget, hwithin⟩ :=
        ih (fun d hd => hds d (List.mem_cons_of_mem _ hd)) hrest hd
      rw [Nat.add_right_comm, Nat.add_assoc] at hbuilt hwithin
      exact ⟨built, hbuilt, hget, hwithin.trans (.append_right _ _)⟩

/-- **A declaration that can be reached is built at its path**, and its entries are in the index. -/
theorem Reachable.built {top : List Yurin.Declaration} {es : List Declaration} {index : Index}
    (htop : ∀ d ∈ top, d.Whole) (h : declarationsOf [] 0 top = .ok (es, index)) {path : Path}
    {d : Yurin.Declaration} (hd : Reachable top path d) :
    d.Whole ∧ path ≠ [] ∧ ∃ built, declarationOf path d = .ok (some built) ∧
      declarationAt? es path = some built.declaration ∧ (built.entries path).Within index := by
  have complete {ds : List Yurin.Declaration} (hds : ∀ d ∈ ds, d.Whole) : ∀ d ∈ ds, d.Complete := by
    intro d hd
    cases hds d hd with
    | intro hcomplete => exact hcomplete
  induction hd with
  | top hi =>
    obtain ⟨built, hbuilt, hget, hwithin⟩ := declarationsOf_get (complete htop) h hi
    rw [Nat.zero_add] at hbuilt hwithin
    exact ⟨htop _ (List.mem_of_getElem? hi), List.cons_ne_nil _ _, built, hbuilt, hget, hwithin⟩
  | @member path d m i _ hi ih =>
    obtain ⟨⟨hcomplete, hwhole⟩, hpath, built, hbuilt, hat, hwithin⟩ := ih
    obtain ⟨keyword, e, inner, ⟨rfl⟩, -, -, hmembers⟩ := declarationOf_announces hcomplete hbuilt
    obtain ⟨built', hbuilt', hget, hwithin'⟩ := declarationsOf_get (complete hwhole) hmembers hi
    rw [Nat.zero_add] at hbuilt' hwithin'
    refine ⟨hwhole m (List.mem_of_getElem? hi), by simp, built', hbuilt', ?_, ?_⟩
    · rw [declarationAt?_append hpath, hat]
      exact hget
    · have hmembers := hwithin'.trans (.append_right (parameterIndex path d) inner)
      exact hmembers.trans ((Index.Within.append_right _ _).trans hwithin)

/-- What stands at a position of one list is related to what stands there in the other. -/
theorem forall₂_getElem? {α β : Type} {R : α → β → Prop} {xs : List α} {ys : List β}
    (h : List.Forall₂ R xs ys) {i : Nat} {x : α} (hx : xs[i]? = some x) :
    ∃ y, ys[i]? = some y ∧ R x y := by
  induction h generalizing i with
  | nil => cases hx
  | cons hr _ ih =>
    cases i with
    | zero =>
      cases hx
      exact ⟨_, rfl, hr⟩
    | succ i => exact ih hx

theorem MirrorsParameter.unique {p : Yurin.Parameter} {q q' : Parameter}
    (h : MirrorsParameter p q) (h' : MirrorsParameter p q') : q = q' := by
  obtain ⟨name, type⟩ := q
  obtain ⟨name', type'⟩ := q'
  obtain rfl : name = name' := h.name.symm.trans h'.name
  obtain rfl : type = type' := Option.some.inj (h.type.symm.trans h'.type)
  rfl

/-- A value parameter has an entry, with the parameter that the skeleton shows in its place. -/
theorem mem_parameterIndex (path : Path) {d : Yurin.Declaration} {e : Declaration} {i : Nat}
    {p : Yurin.Parameter} (hd : d.Complete) (hann : Announces d e)
    (hp : d.parameters[i]? = some p) :
    ∃ q, e.parameters[i]? = some q ∧
      (p.name.token.start, .parameter path i q) ∈ (parameterIndex path d).parameters := by
  obtain ⟨q, hq, hmirror⟩ := forall₂_getElem? hann.parameters hp
  obtain ⟨⟨name, q'⟩, hget, hname, hmirror'⟩ :=
    forall₂_getElem? (typedParameters_mirror hd.typed) hp
  obtain rfl := hmirror.unique hmirror'
  obtain rfl : name = p.name := hname
  refine ⟨q, hq, List.mem_of_getElem? (i := i) ?_⟩
  rw [parameterIndex, parametersOf, Option.getD_some, List.getElem?_mapIdx, hget]
  rfl

/-- **Nothing is lost from a source that is parsed without a complaint.** Its skeleton mirrors its
tree, the index holds as many declarations as the skeleton, and every declaration of the tree, with
each of its parameters, is found in the index at its place. -/
theorem ofFile_lossless {source : Bytes} (h : (parse source).complaints = []) :
    ∃ package index, ofFile (parse source).file = .ok (package, index) ∧
      List.Forall₂ Mirrors (parse source).file.declarations package.declarations ∧
      index.size = sizeOfAll package.declarations ∧
      ∀ path d, Reachable (parse source).file.declarations path d →
        ∃ keyword e, d.keyword? = some keyword ∧ Mirrors d e ∧
          package.site? path = some ⟨path, e⟩ ∧ index.declaration? keyword = some ⟨path, e⟩ ∧
          (∀ i name, d.typeParameters[i]? = some name →
            index.typeParameter? name = some (.typeParameter path i name.name)) ∧
          ∀ i p, d.parameters[i]? = some p → ∃ q, e.parameters[i]? = some q ∧
            index.parameter? p.name = some (.parameter path i q) := by
  obtain ⟨hwhole, hordered⟩ := parse_whole h
  obtain ⟨⟨package, index⟩, hbuilt⟩ := ofFile_parse source
  refine ⟨package, index, hbuilt, ?_⟩
  rw [ofFile] at hbuilt
  obtain ⟨⟨es, found⟩, hes, hbuilt⟩ := Except.bind_eq_ok_iff.mp hbuilt
  obtain ⟨rfl, rfl⟩ := Prod.mk.inj (Except.ok.inj hbuilt)
  have hkeeps := declarationsOf_keeps (fun d hd => declarationOf_keeps (hwhole d hd)) hes
  have hstarts := List.pairwise_map.mpr hordered
  refine ⟨hkeeps.mirrors, hkeeps.size, fun path d hd => ?_⟩
  obtain ⟨hd, -, built, hbuilt, hat, hwithin⟩ := hd.built hwhole hes
  obtain ⟨_, ⟨rfl⟩, hmirrors⟩ := declarationOf_keeps hd path _ hbuilt
  obtain ⟨hcomplete, -⟩ := hd
  obtain ⟨keyword, e, inner, ⟨rfl⟩, hkeyword, hann, -⟩ := declarationOf_announces hcomplete hbuilt
  have hparameters : (parameterIndex path d).Within found :=
    (Index.Within.append_left _ _).trans ((Index.Within.append_right _ _).trans hwithin)
  refine ⟨keyword, e, hkeyword, (List.forall₂_cons.mp hmirrors.mirrors).1, ?_, ?_, ?_, ?_⟩
  · rw [Package.site?, hat, Option.map_some]
  · exact lookup_of_mem (hstarts.sublist hkeeps.declarations)
      (hwithin.declarations List.mem_cons_self)
  · intro i name hname
    refine lookup_of_mem (hstarts.sublist hkeeps.typeParameters) (hparameters.typeParameters ?_)
    refine List.mem_of_getElem? (i := i) ?_
    rw [parameterIndex, typeParametersOf, Option.getD_some, List.getElem?_mapIdx, hname]
    rfl
  · intro i p hp
    obtain ⟨q, hq, hmem⟩ := mem_parameterIndex path hcomplete hann hp
    exact ⟨q, hq, lookup_of_mem (hstarts.sublist hkeeps.parameters) (hparameters.parameters hmem)⟩

/-- A data type with parameters of both kinds, and a function among its members: both are in the
index, and so are the parameters of the function. -/
theorem ofFile_lossless_box :
    let source := utf8 "data Box<T>(item: T) \x7b fun <S> put(next: S) = next \x7d"
    (parse source).complaints = [] ∧
      ∃ d package index, Reachable (parse source).file.declarations [0, 0] d ∧
        ofFile (parse source).file = .ok (package, index) ∧
        List.Forall₂ Mirrors (parse source).file.declarations package.declarations ∧
        index.size = sizeOfAll package.declarations ∧
        ∃ keyword e, d.keyword? = some keyword ∧ Mirrors d e ∧
          package.site? [0, 0] = some ⟨[0, 0], e⟩ ∧
          index.declaration? keyword = some ⟨[0, 0], e⟩ ∧
          (∀ i name, d.typeParameters[i]? = some name →
            index.typeParameter? name = some (.typeParameter [0, 0] i name.name)) ∧
          ∀ i p, d.parameters[i]? = some p → ∃ q, e.parameters[i]? = some q ∧
            index.parameter? p.name = some (.parameter [0, 0] i q) := by
  intro source
  have hclean : (parse source).complaints = [] := by decide +kernel
  have hmember : ((parse source).file.declarations[0]?.bind (·.members[0]?)).isSome = true := by
    decide +kernel
  obtain ⟨m, hm⟩ := Option.isSome_iff_exists.mp hmember
  obtain ⟨d, hd, hm⟩ := Option.bind_eq_some_iff.mp hm
  have hm := (Reachable.top hd).member hm
  obtain ⟨package, index, hbuilt, hmirrors, hsize, hfound⟩ := ofFile_lossless hclean
  exact ⟨hclean, m, package, index, hm, hbuilt, hmirrors, hsize, hfound _ m hm⟩

end Yurin.Skeleton
