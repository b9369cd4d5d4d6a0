import Mathlib.Data.List.Induction
import Yurin.Skeleton.Resolve

/-!
# Declarations and their places

A package holds declarations at any depth, below data types, traits and implementations.
`Package.sites` lists them all, each before those in it: a declaration is in the list if and only if
it stands at its place (`Package.mem_sites`), in the order of the places (`Package.sites_ordered`),
and no place is listed twice (`Package.sites_pairwise`). `Package.along` lists the declarations on
the way to a place (`Package.mem_along`), and `Package.enclosing?` is the nearest data type or trait
around it.
-/

namespace Yurin.Skeleton

/-! ## Induction over members -/

theorem Declaration.sizeOf_lt_of_mem {d m : Declaration} (h : m ∈ d.members) :
    sizeOf m < sizeOf d := by
  cases d with
  | data _ _ _ _ _ _ members | trait _ _ _ _ members | impl _ _ _ members =>
    have hlt : sizeOf m < sizeOf members := List.sizeOf_lt_of_mem h
    simp only [data.sizeOf_spec, trait.sizeOf_spec, impl.sizeOf_spec]
    omega
  | _ => cases h

/-- What holds of a declaration when it holds of its members, holds of every declaration. -/
@[elab_as_elim]
theorem Declaration.memberInduction {motive : Declaration → Prop}
    (step : ∀ d, (∀ m ∈ d.members, motive m) → motive d) (d : Declaration) : motive d :=
  step d fun m _ => memberInduction step m
termination_by sizeOf d
decreasing_by exact sizeOf_lt_of_mem ‹_›

/-! ## The declarations of a package -/

mutual

/-- A declaration at a path, and then the declarations in it. -/
def Declaration.sites (path : Path) : Declaration → List Site
  | .data modifiers flavor name types parameters bindings members =>
    ⟨path, .data modifiers flavor name types parameters bindings members⟩ :: sitesOf path 0 members
  | .trait modifiers name types inherits members =>
    ⟨path, .trait modifiers name types inherits members⟩ :: sitesOf path 0 members
  | .impl modifiers dataType traitType members =>
    ⟨path, .impl modifiers dataType traitType members⟩ :: sitesOf path 0 members
  | d => [⟨path, d⟩]

/-- The declarations at any depth below a path, those at the path from position `i` on. -/
def sitesOf (path : Path) (i : Nat) : List Declaration → List Site
  | [] => []
  | d :: rest => d.sites (path ++ [i]) ++ sitesOf path (i + 1) rest

end

/-- The declarations of a package at any depth, each before those in it. -/
def Package.sites (p : Package) : List Site := sitesOf [] 0 p.declarations

theorem Declaration.sites_eq (path : Path) (d : Declaration) :
    d.sites path = ⟨path, d⟩ :: sitesOf path 0 d.members := by
  cases d <;> rfl

/-- The declaration that a path leads to from a declaration on. -/
def Declaration.below? (d : Declaration) : Path → Option Declaration
  | [] => some d
  | i :: rest => d.members[i]?.bind (·.below? rest)

theorem declarationAt?_cons (ds : List Declaration) (i : Nat) (rest : Path) :
    declarationAt? ds (i :: rest) = ds[i]?.bind (·.below? rest) := by
  induction rest generalizing ds i with
  | nil => exact (Option.bind_fun_some _).symm
  | cons j rest ih =>
    rw [declarationAt?.eq_def]
    simp only [ih]
    rfl

theorem Declaration.below?_of_ne_nil (d : Declaration) {way : Path} (h : way ≠ []) :
    d.below? way = declarationAt? d.members way := by
  obtain ⟨i, rest, rfl⟩ := List.exists_cons_of_ne_nil h
  rw [declarationAt?_cons, below?]

theorem mem_sitesOf {site : Site} {path : Path} {i : Nat} {ds : List Declaration} :
    site ∈ sitesOf path i ds ↔
      ∃ (j : Nat) (d : Declaration), ds[j]? = some d ∧ site ∈ d.sites (path ++ [i + j]) := by
  induction ds generalizing i with
  | nil => exact ⟨nofun, fun ⟨_, _, h, _⟩ => nomatch h⟩
  | cons first rest ih =>
    rw [sitesOf, List.mem_append, ih]
    constructor
    · rintro (h | ⟨j, d, hd, h⟩)
      · exact ⟨0, first, rfl, h⟩
      · exact ⟨j + 1, d, hd, by rwa [Nat.add_right_comm] at h⟩
    · rintro ⟨j, d, hd, h⟩
      cases j with
      | zero =>
        obtain rfl : first = d := by simpa using hd
        exact .inl h
      | succ j => exact .inr ⟨j, d, hd, by rwa [Nat.add_right_comm]⟩

/-- The declarations in a declaration are those that paths lead to. -/
theorem Declaration.mem_sites {site : Site} {path : Path} {d : Declaration} :
    site ∈ d.sites path ↔
      ∃ rest, site.path = path ++ rest ∧ d.below? rest = some site.declaration := by
  induction d using Declaration.memberInduction generalizing path with
  | step d ih =>
    rw [sites_eq, List.mem_cons, mem_sitesOf]
    constructor
    · rintro (rfl | ⟨j, m, hm, h⟩)
      · exact ⟨[], (List.append_nil path).symm, rfl⟩
      · obtain ⟨rest, hpath, hrest⟩ := (ih m (List.mem_of_getElem? hm)).mp h
        refine ⟨j :: rest, by simp [hpath], ?_⟩
        rw [below?, hm, Option.bind_some, hrest]
    · rintro ⟨rest, hpath, hrest⟩
      obtain ⟨place, e⟩ := site
      cases rest with
      | nil =>
        obtain rfl := Option.some.inj hrest
        obtain rfl : place = path := by simpa using hpath
        exact .inl rfl
      | cons j rest =>
        rw [below?] at hrest
        obtain ⟨m, hm, hrest⟩ := Option.bind_eq_some_iff.mp hrest
        refine .inr ⟨j, m, hm, (ih m (List.mem_of_getElem? hm)).mpr ⟨rest, ?_, hrest⟩⟩
        rw [hpath, Nat.zero_add, List.append_assoc, List.singleton_append]

/-- **A package lists the declarations that stand at a place of it.** -/
theorem Package.mem_sites {p : Package} {site : Site} :
    site ∈ p.sites ↔ p.site? site.path = some site := by
  obtain ⟨path, d⟩ := site
  rw [sites, mem_sitesOf, site?, Option.map_eq_some_iff]
  constructor
  · rintro ⟨j, top, htop, h⟩
    obtain ⟨rest, hpath, hrest⟩ := Declaration.mem_sites.mp h
    obtain rfl : path = j :: rest := by simpa using hpath
    exact ⟨d, by rw [declarationAt?_cons, htop, Option.bind_some, hrest], rfl⟩
  · rintro ⟨e, hat, heq⟩
    obtain rfl : e = d := (Site.mk.inj heq).2
    cases path with
    | nil => cases hat
    | cons j rest =>
      rw [declarationAt?_cons] at hat
      obtain ⟨top, htop, hrest⟩ := Option.bind_eq_some_iff.mp hat
      exact ⟨j, top, htop, Declaration.mem_sites.mpr ⟨rest, by simp, hrest⟩⟩

/-- Declarations are listed in the order of their places, also at any depth. -/
theorem sitesOf_ordered {path : Path} {i : Nat} {ds : List Declaration}
    (h : ∀ d ∈ ds, ∀ path, (d.sites path).Pairwise fun s t => s.path < t.path) :
    (sitesOf path i ds).Pairwise fun s t => s.path < t.path := by
  induction ds generalizing i with
  | nil => exact .nil
  | cons first rest ih =>
    refine List.pairwise_append.mpr ⟨h first List.mem_cons_self _,
      ih fun d hd => h d (List.mem_cons_of_mem _ hd), fun s hs t ht => ?_⟩
    obtain ⟨q, hq, -⟩ := Declaration.mem_sites.mp hs
    obtain ⟨j, d, -, ht⟩ := mem_sitesOf.mp ht
    obtain ⟨r, hr, -⟩ := Declaration.mem_sites.mp ht
    rw [hq, hr, List.append_assoc, List.append_assoc]
    exact List.append_left_lt (List.cons_lt_cons_iff.mpr (.inl (by omega)))

theorem Declaration.sites_ordered (path : Path) (d : Declaration) :
    (d.sites path).Pairwise fun s t => s.path < t.path := by
  induction d using Declaration.memberInduction generalizing path with
  | step d ih =>
    rw [sites_eq, List.pairwise_cons]
    refine ⟨fun s hs => ?_, sitesOf_ordered fun m hm path => ih m hm path⟩
    obtain ⟨j, m, -, hs⟩ := mem_sitesOf.mp hs
    obtain ⟨rest, hrest, -⟩ := Declaration.mem_sites.mp hs
    rw [hrest, List.append_assoc]
    nth_rewrite 1 [← List.append_nil path]
    exact List.append_left_lt (List.nil_lt_cons _ _)

/-- **A package lists its declarations in the order of their places**, in which a declaration comes
before those in it. -/
theorem Package.sites_ordered (p : Package) : p.sites.Pairwise fun s t => s.path < t.path :=
  sitesOf_ordered fun d _ path => d.sites_ordered path

/-- **No place of a package is listed twice.** -/
theorem Package.sites_pairwise (p : Package) : p.sites.Pairwise fun s t => s.path ≠ t.path := by
  refine p.sites_ordered.imp ?_
  intro s t hlt heq
  exact List.lt_irrefl t.path (heq ▸ hlt)

/-! ## The way to a place -/

/-- The declarations on the way from a path down a list of declarations. -/
def sitesAlong (path : Path) (ds : List Declaration) : Path → List Site
  | [] => []
  | i :: rest =>
    match ds[i]? with
    | none => []
    | some d => ⟨path ++ [i], d⟩ :: sitesAlong (path ++ [i]) d.members rest

/-- The declarations on the way to a place, from the top level down. -/
def Package.along (p : Package) (path : Path) : List Site := sitesAlong [] p.declarations path

/-- The nearest data type or trait around a place. -/
def Package.enclosing? (p : Package) (path : Path) : Option Site :=
  ((p.along path.dropLast).filter (·.declaration.isContainer)).getLast?

theorem mem_sitesAlong {site : Site} {path way : Path} {ds : List Declaration} :
    site ∈ sitesAlong path ds way ↔
      ∃ q, q <+: way ∧ site.path = path ++ q ∧ declarationAt? ds q = some site.declaration := by
  induction way generalizing path ds with
  | nil =>
    refine ⟨nofun, ?_⟩
    rintro ⟨q, hq, -, hat⟩
    obtain rfl := List.prefix_nil.mp hq
    cases hat
  | cons i rest ih =>
    unfold sitesAlong
    cases hd : ds[i]? with
    | none =>
      refine ⟨nofun, ?_⟩
      rintro ⟨q, hq, -, hat⟩
      cases q with
      | nil => cases hat
      | cons j q =>
        obtain ⟨rfl, -⟩ := List.cons_prefix_cons.mp hq
        rw [declarationAt?_cons, hd] at hat
        cases hat
    | some d =>
      simp only [List.mem_cons, ih]
      constructor
      · rintro (rfl | ⟨q, hq, hpath, hat⟩)
        · exact ⟨[i], by simp, rfl, hd⟩
        · refine ⟨i :: q, List.cons_prefix_cons.mpr ⟨rfl, hq⟩, by simp [hpath], ?_⟩
          cases q with
          | nil => cases hat
          | cons j q =>
            rw [declarationAt?_cons] at hat
            rw [declarationAt?_cons, hd]
            exact hat
      · rintro ⟨q, hq, hpath, hat⟩
        cases q with
        | nil => cases hat
        | cons j q =>
          obtain ⟨rfl, hrest⟩ := List.cons_prefix_cons.mp hq
          rw [declarationAt?_cons, hd, Option.bind_some] at hat
          cases q with
          | nil =>
            obtain ⟨place, e⟩ := site
            obtain rfl := Option.some.inj hat
            obtain rfl : place = path ++ [j] := hpath
            exact .inl rfl
          | cons k q =>
            refine .inr ⟨k :: q, hrest, by simp [hpath], ?_⟩
            rw [declarationAt?_cons]
            exact hat

/-- **On the way to a place** stand the declarations whose place is a beginning of it. -/
theorem Package.mem_along {p : Package} {path : Path} {site : Site} :
    site ∈ p.along path ↔ site.path <+: path ∧ p.site? site.path = some site := by
  obtain ⟨place, d⟩ := site
  rw [along, mem_sitesAlong, site?, Option.map_eq_some_iff]
  constructor
  · rintro ⟨q, hq, rfl, hat⟩
    exact ⟨hq, d, hat, rfl⟩
  · rintro ⟨hq, e, hat, heq⟩
    obtain rfl : e = d := (Site.mk.inj heq).2
    exact ⟨place, hq, rfl, hat⟩

/-- A path that goes on leads to a member. -/
theorem declarationAt?_append {es : List Declaration} {path : Path} (hpath : path ≠ []) (i : Nat) :
    declarationAt? es (path ++ [i]) = (declarationAt? es path).bind (·.members[i]?) := by
  induction path generalizing es with
  | nil => contradiction
  | cons j rest ih =>
    cases rest with
    | nil => rfl
    | cons k rest =>
      simp only [List.cons_append, declarationAt?, Option.bind_assoc]
      congr 1
      funext d
      exact ih (List.cons_ne_nil _ _)

theorem Package.path_of_site? {p : Package} {path : Path} {site : Site}
    (h : p.site? path = some site) : site.path = path := by
  obtain ⟨d, -, rfl⟩ := Option.map_eq_some_iff.mp h
  rfl

/-- A declaration below the top level is a member of the one before it on the way. -/
theorem Package.site?_concat {p : Package} {way : Path} {i : Nat} {site : Site}
    (h : p.site? (way ++ [i]) = some site) (hway : way ≠ []) :
    ∃ above, p.site? way = some above ∧ above.declaration.members[i]? = some site.declaration := by
  obtain ⟨d, hd, rfl⟩ := Option.map_eq_some_iff.mp h
  rw [declarationAt?_append hway] at hd
  obtain ⟨above, habove, hmember⟩ := Option.bind_eq_some_iff.mp hd
  exact ⟨⟨way, above⟩, by rw [site?, habove, Option.map_some], hmember⟩

theorem sitesAlong_concat {path way : Path} {i : Nat} {ds : List Declaration} {d : Declaration}
    (h : declarationAt? ds (way ++ [i]) = some d) :
    sitesAlong path ds (way ++ [i]) = sitesAlong path ds way ++ [⟨path ++ way ++ [i], d⟩] := by
  induction way generalizing path ds with
  | nil =>
    have hd : ds[i]? = some d := h
    simp [sitesAlong, hd]
  | cons j rest ih =>
    rw [List.cons_append, declarationAt?_cons] at h
    obtain ⟨e, he, hbelow⟩ := Option.bind_eq_some_iff.mp h
    rw [Declaration.below?_of_ne_nil e (by simp)] at hbelow
    rw [List.cons_append, sitesAlong, sitesAlong, he]
    simp [ih hbelow]

/-- The way to a declaration ends with it. -/
theorem Package.along_concat {p : Package} {way : Path} {i : Nat} {site : Site}
    (h : p.site? (way ++ [i]) = some site) : p.along (way ++ [i]) = p.along way ++ [site] := by
  obtain ⟨d, hd, rfl⟩ := Option.map_eq_some_iff.mp h
  exact sitesAlong_concat hd

/-- The declarations on the way to a member hold members. -/
theorem Package.members_of_mem_along {p : Package} {way : Path} {i : Nat} {site above : Site}
    (h : p.site? (way ++ [i]) = some site) (habove : above ∈ p.along way) :
    above.declaration.members ≠ [] := by
  induction way using List.reverseRecOn generalizing i site with
  | nil => cases habove
  | append_singleton way j ih =>
    obtain ⟨last, hlast, hmember⟩ := site?_concat h (by simp)
    rw [along_concat hlast, List.mem_append, List.mem_singleton] at habove
    rcases habove with habove | rfl
    · exact ih hlast habove
    · exact List.ne_nil_of_mem (List.mem_of_getElem? hmember)

end Yurin.Skeleton
