import Yurin.Proofs.Skeleton.Resolving
import Yurin.Proofs.Skeleton.Sites
import Yurin.Skeleton.Outline

/-!
# The outline names its types

The outline carries the names of the types around a declaration down into it; the resolver finds its
way down from the names alone. `Package.typePath` is what both should agree on: the names of the
data types and traits around a place, and the name of what stands there.

* `outline_eq`: the outline lists the types of a package in the order of their places, each by its
  path. Implementations are passed through: they add no name.
* `resolveFrom_along`: where the declarations on the way to a place are types, each alone with its
  name among its neighbours, the resolver goes this way.

Result: `outline_resolves`.
-/

namespace Yurin

/-! ## The types of a package -/

namespace DeclarationKind

/-- Whether declarations of a kind are types: data types, aliases and traits are. -/
def isType (kind : DeclarationKind) : Bool := kind == .data || kind == .typealias || kind == .trait

/-- What the outline calls a type of a kind. -/
def typeKind (kind : DeclarationKind) : Skeleton.TypeKind := if kind = .trait then .trait else .data

end DeclarationKind

namespace Skeleton

variable {p : Package} {path : Path} {site : Site} {d : Declaration} {ds : List Declaration}

/-- The names of the data types and traits around a place, from the outermost inwards. -/
def Package.namesAround (p : Package) (path : Path) : List Bytes :=
  ((p.along path.dropLast).filter (·.declaration.isContainer)).filterMap (·.declaration.name?)

/-- **The path of a type**: the names around it and its own. -/
def Package.typePath (p : Package) (site : Site) : List Bytes :=
  p.namesAround site.path ++ site.declaration.name?.toList

/-- The outline entry of a type. -/
def Package.typeEntry (p : Package) (site : Site) : QualifiedType :=
  ⟨p.name, Bytes.join (utf8 ".") (p.typePath site), site.declaration.kind.typeKind⟩

/-- The paths of the types among some declarations. -/
def Package.typePaths (p : Package) (sites : List Site) : List (List Bytes × TypeKind) :=
  (sites.filter (·.declaration.kind.isType)).map fun s =>
    (p.typePath s, s.declaration.kind.typeKind)

theorem Package.typePaths_append (p : Package) (sites more : List Site) :
    p.typePaths (sites ++ more) = p.typePaths sites ++ p.typePaths more := by
  rw [typePaths, List.filter_append, List.map_append, typePaths, typePaths]

/-- A place of a package ends with a position. -/
theorem Package.exists_concat (h : p.site? path = some site) : ∃ way i, path = way ++ [i] := by
  rcases List.eq_nil_or_concat' path with rfl | hconcat
  · cases h
  · exact hconcat

/-- A member stands below its declaration. -/
theorem Package.site?_member (h : p.site? path = some site) {j : Nat} {m : Declaration}
    (hm : site.declaration.members[j]? = some m) :
    p.site? (path ++ [j]) = some ⟨path ++ [j], m⟩ := by
  obtain ⟨way, i, rfl⟩ := exists_concat h
  obtain ⟨d, hd, rfl⟩ := Option.map_eq_some_iff.mp h
  rw [site?, declarationAt?_append (by simp), hd, Option.bind_some, hm, Option.map_some]

/-- The way to a declaration ends with it. -/
theorem Package.along_getLast? (h : p.site? path = some site) :
    (p.along path).getLast? = some site := by
  obtain ⟨way, i, rfl⟩ := exists_concat h
  rw [along_concat h, List.getLast?_concat]

/-- Only data types and traits add their names to those around their members. -/
theorem Package.namesAround_member (h : p.site? path = some site) (j : Nat) :
    p.namesAround (path ++ [j]) = p.namesAround path ++
      if site.declaration.isContainer then site.declaration.name?.toList else [] := by
  obtain ⟨way, i, rfl⟩ := exists_concat h
  rw [namesAround, namesAround, List.dropLast_concat, List.dropLast_concat, along_concat h,
    List.filter_append, List.filterMap_append, List.append_cancel_left_eq, List.filter_singleton]
  cases site.declaration.isContainer with
  | true => cases hname : site.declaration.name? <;> simp [hname]
  | false => rfl

/-- The outline of a declaration: its own entry, if it is a type, and those of its members. -/
theorem Declaration.types_eq (above : List Bytes) (d : Declaration) :
    d.types above = (if d.kind.isType then [(above ++ d.name?.toList, d.kind.typeKind)] else []) ++
      typesOf (above ++ if d.isContainer then d.name?.toList else []) d.members := by
  cases d with
  | impl => simp [types, kind, DeclarationKind.isType, isContainer, members]
  | _ => rfl

theorem typesOf_eq {above : List Bytes} {i : Nat}
    (h : ∀ (j : Nat) (d : Declaration), ds[j]? = some d →
      d.types above = p.typePaths (d.sites (path ++ [i + j]))) :
    typesOf above ds = p.typePaths (sitesOf path i ds) := by
  induction ds generalizing i with
  | nil => rfl
  | cons first rest ih =>
    rw [typesOf, sitesOf, p.typePaths_append, h 0 first rfl, Nat.add_zero, ih fun j d hd => ?_]
    rw [h (j + 1) d hd, Nat.add_right_comm, Nat.add_assoc]

theorem Declaration.types_sites (h : p.site? path = some ⟨path, d⟩) :
    d.types (p.namesAround path) = p.typePaths (d.sites path) := by
  induction d using Declaration.memberInduction generalizing path with
  | step d ih =>
    have hmembers : typesOf (p.namesAround path ++ if d.isContainer then d.name?.toList else [])
        d.members = p.typePaths (sitesOf path 0 d.members) := by
      refine typesOf_eq fun j m hm => ?_
      have hmember := Package.site?_member h hm
      rw [← Package.namesAround_member h j, Nat.zero_add]
      exact ih m (List.mem_of_getElem? hm) hmember
    rw [types_eq, hmembers, sites_eq, ← List.singleton_append (l := sitesOf path 0 d.members),
      p.typePaths_append]
    cases hkind : d.kind.isType <;> simp [Package.typePaths, Package.typePath, hkind]

/-- **The outline lists the types** in the order of their places, each by its path. -/
theorem Package.outline_eq (p : Package) :
    p.outline = (p.sites.filter (·.declaration.kind.isType)).map p.typeEntry := by
  have htypes : typesOf [] p.declarations = p.typePaths p.sites := by
    refine typesOf_eq fun j d hd => ?_
    have hsite : p.site? [j] = some ⟨[j], d⟩ := by
      rw [site?, declarationAt?, hd, Option.map_some]
    rw [Nat.zero_add]
    exact Declaration.types_sites hsite
  rw [outline, htypes, typePaths, List.map_map]
  rfl

/-! ## The way of the resolver -/

/-- No other declaration beside one has its name. -/
def Package.NamedAlone (p : Package) (site : Site) : Prop :=
  ∀ other, p.site? other.path = some other → other.path.dropLast = site.path.dropLast →
    other.declaration.name? = site.declaration.name? → other.path = site.path

/-- A declaration alone with its name is the first of that name. -/
theorem Package.NamedAlone.firstNamed {way : Path} {i : Nat} {name : Bytes}
    (h : p.NamedAlone site) (hpath : site.path = way ++ [i])
    (hname : site.declaration.name? = some name) (hfound : ds[i]? = some site.declaration)
    (hbeside : ∀ (j : Nat) (e : Declaration), ds[j]? = some e →
      p.site? (way ++ [j]) = some ⟨way ++ [j], e⟩) :
    FirstNamed name ds i site.declaration := by
  refine ⟨hfound, hname, fun j hj e he hsame => ?_⟩
  have heq := h ⟨way ++ [j], e⟩ (hbeside j e he) (by simp [hpath]) (hsame.trans hname.symm)
  rw [← heq, List.append_cancel_left_eq] at hpath
  have hindex : j = i := (List.cons.inj hpath).1
  omega

/-- Every type has a name. -/
theorem Declaration.exists_name (h : d.kind.isType = true) : ∃ name, d.name? = some name := by
  cases d with
  | data _ _ name | trait _ name | typealias _ name => exact ⟨name, rfl⟩
  | _ => cases h

/-- There are as many names as types. -/
theorem names_length {sites : List Site} (h : ∀ s ∈ sites, s.declaration.kind.isType = true) :
    (sites.filterMap (·.declaration.name?)).length = sites.length := by
  refine List.filterMap_length_eq_length.mpr fun s hs => ?_
  obtain ⟨name, hname⟩ := Declaration.exists_name (h s hs)
  rw [hname, Option.isSome_some]

/-- A type that has members is a data type or a trait. -/
theorem Declaration.isContainer_of_members (h : d.kind.isType = true) (hm : d.members ≠ []) :
    d.isContainer = true := by
  cases d with
  | data | trait => rfl
  | typealias => exact absurd rfl hm
  | _ => cases h

/-- A type alone with its name at the top level is what the name stands for. -/
theorem Package.NamedAlone.lookup {i : Nat} {name : Bytes} (h : p.NamedAlone site)
    (hsite : p.site? [i] = some site) (hname : site.declaration.name? = some name) :
    p.lookup name = some site := by
  have hpath := path_of_site? hsite
  obtain ⟨d, hd, rfl⟩ := Option.map_eq_some_iff.mp hsite
  exact lookup_eq_some_iff.mpr ⟨i, rfl, h.firstNamed rfl hname hd fun j e he => by
    rw [site?, List.nil_append, declarationAt?, he, Option.map_some]⟩

/-- A type alone with its name below another type is a member of that. -/
theorem Package.NamedAlone.member? {above : Site} {way : Path} {i : Nat} {name : Bytes}
    (h : p.NamedAlone site) (htype : site.declaration.kind.isType = true)
    (hsite : p.site? (way ++ [i]) = some site) (hname : site.declaration.name? = some name)
    (habove : p.site? way = some above) (hcontainer : above.declaration.kind.isType = true)
    (hmember : above.declaration.members[i]? = some site.declaration) :
    above.member? name = some site := by
  have hpath := path_of_site? hsite
  have hmembers := List.ne_nil_of_mem (List.mem_of_getElem? hmember)
  refine Site.member?_eq_some_iff.mpr ⟨?_, ⟨i, ?_, ?_⟩, ?_⟩
  · exact Declaration.isContainer_iff.mp (Declaration.isContainer_of_members hcontainer hmembers)
  · rw [hpath, path_of_site? habove]
  · exact h.firstNamed hpath hname hmember fun j e he => site?_member habove he
  · rintro (hkind | hkind) <;> simp [hkind, DeclarationKind.isType] at htype

/-- **The resolver goes the way of the names**, where these belong to types that are alone with
them. -/
theorem Package.resolveFrom_along {start : Nat} (hsite : p.site? path = some site)
    (hsteps : ∀ s ∈ p.along path, s.declaration.kind.isType = true ∧ p.NamedAlone s) :
    p.resolveFrom start ((p.along path).filterMap (·.declaration.name?)) =
      (p.along path).mapIdx fun i s => ⟨start + i, s⟩ := by
  induction path using List.reverseRecOn generalizing site with
  | nil => cases hsite
  | append_singleton way i ih =>
    rw [along_concat hsite] at hsteps ⊢
    obtain ⟨htype, halone⟩ := hsteps site (by simp)
    obtain ⟨name, hname⟩ := Declaration.exists_name htype
    have hown : [site].filterMap (·.declaration.name?) = [name] := by simp [hname]
    rw [List.filterMap_append, hown, List.mapIdx_concat]
    by_cases hway : way = []
    · subst hway
      have hlookup := halone.lookup hsite hname
      simp [along, sitesAlong, resolveFrom, hlookup, Site.follow]
    · obtain ⟨above, habove, hmember⟩ := site?_concat hsite hway
      have hbefore := fun s hs => hsteps s (List.mem_append_left _ hs)
      have hfound := ih habove hbefore
      have hnames := names_length fun s hs => (hbefore s hs).1
      have hlast := along_getLast? habove
      have hstep := halone.member? htype hsite hname habove
        (hbefore above (List.mem_of_getLast? hlast)).1 hmember
      rw [resolveFrom_eq] at hfound ⊢
      rw [resolveBy_concat (m := ⟨start + ((p.along way).length - 1), above⟩) ?_ ?_ hstep, hfound,
        hnames]
      · rw [hfound, hnames, List.length_mapIdx]
      · rw [hfound, List.getLast?_mapIdx, hlast, Option.map_some]

/-- Where all declarations around a type are types, its path is that of all their names. -/
theorem Package.typePath_eq (hsite : p.site? path = some site)
    (hsteps : ∀ s ∈ p.along path, s.declaration.kind.isType = true) :
    p.typePath site = (p.along path).filterMap (·.declaration.name?) := by
  have hpath := path_of_site? hsite
  obtain ⟨way, i, rfl⟩ := exists_concat hsite
  have haround : (p.along way).filter (·.declaration.isContainer) = p.along way :=
    List.filter_eq_self.mpr fun s hs =>
      Declaration.isContainer_of_members
        (hsteps s (along_concat hsite ▸ List.mem_append_left _ hs)) (members_of_mem_along hsite hs)
  rw [typePath, namesAround, hpath, List.dropLast_concat, haround, along_concat hsite,
    List.filterMap_append]
  cases hname : site.declaration.name? <;> simp [hname]

/-- The matches are those of all segments from `start` on, and the last one is `site`. -/
structure LeadsTo (found : List Match) (start : Nat) (segments : List Bytes) (site : Site) :
    Prop where
  segments_eq : found.map Match.segment = List.range' start (segments.length - start)
  ends : found.getLast?.map Match.site = some site

/-- A type below no implementation is resolved by its path, behind the segments before `start`. -/
theorem Package.leadsTo_along {start : Nat} (before : List Bytes)
    (hsite : p.site? path = some site)
    (hsteps : ∀ s ∈ p.along path, s.declaration.kind.isType = true ∧ p.NamedAlone s)
    (hstart : before.length = start) :
    LeadsTo (p.resolveFrom start (p.typePath site)) start (before ++ p.typePath site) site := by
  have htypes := fun s hs => (hsteps s hs).1
  rw [typePath_eq hsite htypes, resolveFrom_along hsite hsteps]
  refine ⟨?_, ?_⟩
  · rw [List.length_append, names_length htypes, hstart, Nat.add_sub_cancel_left]
    refine List.ext_getElem (by simp) fun i hi _ => ?_
    simp
  · rw [List.getLast?_mapIdx, along_getLast? hsite]
    rfl

/-- The declarations around a type are types, if none of them is an implementation. -/
theorem Package.isType_of_mem_along (hsite : p.site? path = some site)
    (htype : site.declaration.kind.isType = true)
    (himpl : ∀ above ∈ p.along path, above.declaration.kind ≠ .impl) :
    ∀ s ∈ p.along path, s.declaration.kind.isType = true := by
  intro s hs
  have hkind := himpl s hs
  obtain ⟨way, i, rfl⟩ := exists_concat hsite
  rw [along_concat hsite, List.mem_append, List.mem_singleton] at hs
  rcases hs with hs | rfl
  · have hmembers := members_of_mem_along hsite hs
    cases hd : s.declaration with
    | data | trait | typealias => rfl
    | impl => exact absurd (by rw [hd]; rfl) hkind
    | _ => exact absurd (by rw [hd]; rfl) hmembers
  · exact htype

/-- **The outline names its types so that they can be found.** It lists the data types, aliases and
traits at any depth of a package, each once, in the order of their places, by the names of the data
types and traits around them and their own. For a type that no implementation holds, where each step
of the way to it is alone with its name among its neighbours, resolving these names from the top
level matches all of them and ends at the type, and so does resolving them behind the package
name. -/
theorem outline_resolves (p : Package) :
    (∃ listed : List Site, (listed.Pairwise fun s t => s.path < t.path) ∧
      (∀ site, site ∈ listed ↔
        p.site? site.path = some site ∧ site.declaration.kind.isType = true) ∧
      p.outline = listed.map p.typeEntry) ∧
    ∀ site, p.site? site.path = some site → site.declaration.kind.isType = true →
      (∀ above ∈ p.along site.path, above.declaration.kind ≠ .impl) →
      (∀ step ∈ p.along site.path, p.NamedAlone step) →
      LeadsTo (p.resolveLocal (p.typePath site)) 0 (p.typePath site) site ∧
        (p.nameParts ≠ [] →
          LeadsTo (p.resolveQualified (p.nameParts ++ p.typePath site)) p.nameParts.length
            (p.nameParts ++ p.typePath site) site) := by
  refine ⟨⟨_, p.sites_ordered.filter _, fun site => ?_, p.outline_eq⟩, ?_⟩
  · rw [List.mem_filter, Package.mem_sites]
  · intro site hsite htype himpl halone
    have hsteps := fun s hs =>
      And.intro (Package.isType_of_mem_along hsite htype himpl s hs) (halone s hs)
    refine ⟨Package.leadsTo_along [] hsite hsteps rfl, fun hname => ?_⟩
    have hqualified : p.resolveQualified (p.nameParts ++ p.typePath site) =
        p.resolveFrom p.nameParts.length (p.typePath site) := by
      have hcondition := Package.qualified_iff.mpr ⟨hname, List.prefix_append _ (p.typePath site)⟩
      rw [Package.resolveQualified, if_pos hcondition, List.drop_left]
    rw [hqualified]
    exact Package.leadsTo_along p.nameParts hsite hsteps rfl

/-- An alias in a trait in a data type. Another trait of that name stands in an implementation. -/
theorem outline_resolves_nested :
    let synonym : Declaration := .typealias [] (utf8 "T") [] .dynamic
    let inner : Declaration := .trait [] (utf8 "In") [] [] [synonym]
    let outer : Declaration :=
      .data [] .none (utf8 "Out") [] [] [] [.effect [] (utf8 "E") [], inner]
    let p : Package := ⟨[utf8 "a"], [.impl [] .dynamic .nothing [inner], outer]⟩
    let site : Site := ⟨[1, 1, 0], synonym⟩
    p.site? site.path = some site ∧ site.declaration.kind.isType = true ∧
      (∀ above ∈ p.along site.path, above.declaration.kind ≠ .impl) ∧
      (∀ step ∈ p.along site.path, p.NamedAlone step) ∧ p.nameParts ≠ [] ∧
      p.typePath site = [utf8 "Out", utf8 "In", utf8 "T"] ∧
      LeadsTo (p.resolveQualified (p.nameParts ++ p.typePath site)) 1
        (p.nameParts ++ p.typePath site) site := by
  intro synonym inner outer p site
  have himpl : ∀ above ∈ p.along site.path, above.declaration.kind ≠ .impl := by decide +kernel
  have halone : ∀ step ∈ p.along site.path, p.NamedAlone step := by
    have hsites : ∀ step ∈ p.along site.path, ∀ other ∈ p.sites,
        other.path.dropLast = step.path.dropLast →
          other.declaration.name? = step.declaration.name? → other.path = step.path := by
      decide +kernel
    exact fun step hstep other hother => hsites step hstep other (Package.mem_sites.mpr hother)
  have hresolved := (outline_resolves p).2 site rfl rfl himpl halone
  exact ⟨rfl, rfl, himpl, halone, by decide, by decide +kernel, hresolved.2 (by decide)⟩

end Skeleton

end Yurin
