import Mathlib.Data.List.Chain
import Yurin.Proofs.Scope.Candidates

/-!
# The scope tree is the nesting of the declarations

What the scopes of a package are, said without a walk through them.

* `size_ofPackage`: every declaration that opens a scope opens one, and there is the root.
* `chainOf?_ofPackage`: the scopes around a declaration that opens one are those that were opened on
  the way to it, and the root. So the scope around it is that of the nearest data type or trait
  (`chainOf?_enclosing`): an implementation is passed over.
* `lookup_eq_some_iff`: a name is found in the nearest scope that has it.

Result: `Scope.nesting`, which also says that building the tree step by step succeeds and what the
names of each scope stand for.
-/

namespace Yurin

open Skeleton

/-- The declarations that open a scope on the way to a place, from the top level down. -/
def Skeleton.Package.openersAlong (p : Package) (path : Path) : List Site :=
  (p.along path).filter (·.declaration.opensScope)

namespace Scope

/-! ## The number of scopes -/

theorem sizeAll_append (xs ys : List Scope) : sizeAll (xs ++ ys) = sizeAll xs + sizeAll ys := by
  induction xs with
  | nil => simp [sizeAll]
  | cons s rest ih => rw [List.cons_append, sizeAll, sizeAll, ih, Nat.add_assoc]

theorem sizeAll_ofDeclarations {path : Path} {i : Nat} {ds : List Skeleton.Declaration}
    (h : ∀ d ∈ ds, ∀ path, sizeAll (ofDeclaration path d) =
      ((d.sites path).filter (·.declaration.opensScope)).length) :
    sizeAll (ofDeclarations path i ds) =
      ((sitesOf path i ds).filter (·.declaration.opensScope)).length := by
  induction ds generalizing i with
  | nil => rfl
  | cons d rest ih =>
    rw [ofDeclarations_cons, sizeAll_append, h d List.mem_cons_self,
      ih fun d hd => h d (List.mem_cons_of_mem _ hd), sitesOf, List.filter_append,
      List.length_append]

/-- Every declaration in a declaration that opens a scope contributes one. -/
theorem sizeAll_ofDeclaration (path : Path) (d : Skeleton.Declaration) :
    sizeAll (ofDeclaration path d) =
      ((d.sites path).filter (·.declaration.opensScope)).length := by
  induction d using Declaration.memberInduction generalizing path with
  | step d ih =>
    have hmembers : sizeAll (ofDeclarations path 0 d.members) =
        ((sitesOf path 0 d.members).filter (·.declaration.opensScope)).length :=
      sizeAll_ofDeclarations ih
    rw [ofDeclaration_eq, Declaration.sites_eq]
    cases hopens : d.opensScope with
    | true => simp [opened, sizeAll, size, hmembers, hopens]
    | false => simp [hmembers, hopens]

theorem size_ofPackage (p : Package) : (ofPackage p).size = p.openers.length + 1 := by
  rw [ofPackage, size, sizeAll_ofDeclarations fun d _ path => sizeAll_ofDeclaration path d]
  rfl

/-! ## The scopes around a declaration -/

theorem chainBelow?_append (path : Path) (xs ys : List Scope) :
    chainBelow? path (xs ++ ys) = (chainBelow? path xs).or (chainBelow? path ys) := by
  induction xs with
  | nil => rfl
  | cons s rest ih =>
    rw [List.cons_append, chainBelow?, chainBelow?, ih]
    cases s.chainOf? path <;> rfl

theorem chainBelow?_singleton (way : Path) (s : Scope) : chainBelow? way [s] = s.chainOf? way := by
  rw [chainBelow?, chainBelow?]
  cases s.chainOf? way <;> rfl

theorem chainOf?_opened (way : Path) (site : Site) :
    (opened site).chainOf? way =
      if site.path = way then some [opened site]
      else (chainBelow? way (ofDeclarations site.path 0 site.declaration.members)).map
        (· ++ [opened site]) := by
  rw [opened, chainOf?]
  simp only [Option.any_some, beq_iff_eq]

theorem chainBelow?_miss {path way : Path} {i : Nat} {ds : List Skeleton.Declaration}
    (h : ∀ d ∈ ds, ∀ path, ¬ path <+: way → chainBelow? way (ofDeclaration path d) = none)
    (hway : ∀ j, i ≤ j → ¬ path ++ [j] <+: way) :
    chainBelow? way (ofDeclarations path i ds) = none := by
  induction ds generalizing i with
  | nil => rfl
  | cons d rest ih =>
    rw [ofDeclarations_cons, chainBelow?_append,
      h d List.mem_cons_self _ (hway i (Nat.le_refl i)), Option.none_or]
    exact ih (fun d hd => h d (List.mem_cons_of_mem _ hd))
      fun j hj => hway j (Nat.le_of_succ_le hj)

/-- A way that does not go through a declaration leads to none of its scopes. -/
theorem chainBelow?_ofDeclaration_miss {path way : Path} {d : Skeleton.Declaration}
    (hway : ¬ path <+: way) : chainBelow? way (ofDeclaration path d) = none := by
  induction d using Declaration.memberInduction generalizing path with
  | step d ih =>
    have hmembers : chainBelow? way (ofDeclarations path 0 d.members) = none :=
      chainBelow?_miss (fun m hm _ hpath => ih m hm hpath)
        fun j _ hpath => hway ((List.prefix_append path [j]).trans hpath)
    rw [ofDeclaration_eq]
    split
    · have hne : path ≠ way := fun heq => hway (heq ▸ List.prefix_rfl)
      rw [chainBelow?_singleton, chainOf?_opened, if_neg hne, hmembers, Option.map_none]
    · exact hmembers

theorem not_prefix_of_ne {path rest : Path} {i j : Nat} (h : i ≠ j) :
    ¬ path ++ [i] <+: path ++ j :: rest := by
  rw [List.prefix_append_right_inj, List.cons_prefix_cons]
  exact fun h' => h h'.1

/-- A way leads into the declaration at its position. -/
theorem chainBelow?_ofDeclarations (path rest : Path) (i j : Nat)
    (ds : List Skeleton.Declaration) :
    chainBelow? (path ++ (i + j) :: rest) (ofDeclarations path i ds) =
      ds[j]?.bind fun d =>
        chainBelow? (path ++ (i + j) :: rest) (ofDeclaration (path ++ [i + j]) d) := by
  induction ds generalizing i j with
  | nil => rfl
  | cons d ds ih =>
    rw [ofDeclarations_cons, chainBelow?_append]
    cases j with
    | zero =>
      have hothers : chainBelow? (path ++ (i + 0) :: rest) (ofDeclarations path (i + 1) ds) =
          none :=
        chainBelow?_miss (fun _ _ _ hpath => chainBelow?_ofDeclaration_miss hpath)
          fun k hk => not_prefix_of_ne (by omega)
      rw [hothers, Option.or_none]
      rfl
    | succ j =>
      have hfirst : chainBelow? (path ++ (i + (j + 1)) :: rest) (ofDeclaration (path ++ [i]) d) =
          none :=
        chainBelow?_ofDeclaration_miss (not_prefix_of_ne (by omega))
      rw [hfirst, Option.none_or, Nat.add_comm j 1, ← Nat.add_assoc, ih]
      rw [Nat.add_comm 1 j, List.getElem?_cons_succ]

/-- **The scopes around a declaration** that opens one are those that were opened on the way to it.
-/
theorem chainBelow?_along (path way : Path) (ds : List Skeleton.Declaration) :
    chainBelow? (path ++ way) (ofDeclarations path 0 ds) =
      (declarationAt? ds way).bind fun d =>
        if d.opensScope then
          some (((sitesAlong path ds way).filter (·.declaration.opensScope)).reverse.map opened)
        else none := by
  induction way generalizing path ds with
  | nil =>
    refine chainBelow?_miss (fun _ _ _ hpath => chainBelow?_ofDeclaration_miss hpath) ?_
    intro j _ hpath
    have hle := hpath.length_le
    simp only [List.length_append, List.length_singleton, List.append_nil] at hle
    omega
  | cons i rest ih =>
    have hhead := chainBelow?_ofDeclarations path rest 0 i ds
    rw [Nat.zero_add] at hhead
    rw [hhead, declarationAt?_cons, sitesAlong]
    cases hd : ds[i]? with
    | none => rfl
    | some d =>
      have hbelow : path ++ i :: rest = (path ++ [i]) ++ rest := by simp
      simp only [Option.bind_some]
      rw [hbelow, ofDeclaration_eq]
      have hinner := ih (path ++ [i]) d.members
      cases rest with
      | nil =>
        cases hopens : d.opensScope with
        | true =>
          simp [chainBelow?_singleton, chainOf?_opened, hopens, Declaration.below?, sitesAlong]
        | false => simpa [hopens, Declaration.below?, declarationAt?] using hinner
      | cons j rest =>
        have hdown : d.below? (j :: rest) = declarationAt? d.members (j :: rest) := by
          rw [declarationAt?_cons]
          rfl
        rw [hdown]
        rw [List.filter_cons]
        cases hopens : d.opensScope with
        | true =>
          have hne : path ++ [i] ≠ path ++ [i] ++ j :: rest := by simp
          rw [if_pos rfl, if_pos rfl, chainBelow?_singleton, chainOf?_opened, if_neg hne, hinner]
          cases declarationAt? d.members (j :: rest) with
          | none => rfl
          | some e => cases h : e.opensScope <;> simp [h]
        | false => rw [if_neg Bool.false_ne_true, if_neg Bool.false_ne_true, hinner]

/-- **The way up from a scope** of a package. -/
theorem chainOf?_ofPackage (p : Package) (path : Path) :
    (ofPackage p).chainOf? path = (p.site? path).bind fun site =>
      if site.declaration.opensScope then
        some ((p.openersAlong path).reverse.map opened ++ [ofPackage p])
      else none := by
  have halong := chainBelow?_along [] path p.declarations
  rw [List.nil_append] at halong
  rw [ofPackage, chainOf?, if_neg (by simp), halong, Package.site?, Package.openersAlong,
    Package.along]
  cases declarationAt? p.declarations path with
  | none => rfl
  | some d => cases h : d.opensScope <;> simp [h]

theorem chainOf?_of_opener {p : Package} {site : Site} (h : site ∈ p.openers) :
    (ofPackage p).chainOf? site.path =
      some ((p.openersAlong site.path).reverse.map opened ++ [ofPackage p]) := by
  obtain ⟨hsite, hopens⟩ := List.mem_filter.mp h
  rw [chainOf?_ofPackage, Package.mem_sites.mp hsite, Option.bind_some, if_pos hopens]

/-- **Only declarations that open a scope** have a way up. -/
theorem isSome_chainOf? {p : Package} {path : Path} :
    ((ofPackage p).chainOf? path).isSome ↔ ∃ site ∈ p.openers, site.path = path := by
  constructor
  · intro h
    obtain ⟨chain, hchain⟩ := Option.isSome_iff_exists.mp h
    rw [chainOf?_ofPackage, Option.bind_eq_some_iff] at hchain
    obtain ⟨site, hsite, hchain⟩ := hchain
    have hopens := (Option.ite_none_right_eq_some.mp hchain).1
    obtain rfl := Package.path_of_site? hsite
    exact ⟨site, List.mem_filter.mpr ⟨Package.mem_sites.mpr hsite, hopens⟩, rfl⟩
  · rintro ⟨site, h, rfl⟩
    rw [chainOf?_of_opener h]
    rfl

/-! ## The scope around a scope -/

theorem openersAlong_concat {p : Package} {way : Path} {i : Nat} {site : Site}
    (h : p.site? (way ++ [i]) = some site) :
    p.openersAlong (way ++ [i]) =
      p.openersAlong way ++ if site.declaration.opensScope then [site] else [] := by
  rw [Package.openersAlong, Package.along_concat h, List.filter_append, List.filter_singleton,
    cond_eq_ite]
  rfl

theorem opensScope_of_members {d : Skeleton.Declaration} (h : d.members ≠ []) :
    d.opensScope = d.isContainer := by
  cases d <;> first | rfl | exact absurd rfl h

/-- Of the declarations around a place, those that open a scope are the data types and traits. -/
theorem enclosing?_concat {p : Package} {way : Path} {i : Nat} {site : Site}
    (h : p.site? (way ++ [i]) = some site) :
    p.enclosing? (way ++ [i]) = (p.openersAlong way).getLast? := by
  rw [Package.enclosing?, Package.openersAlong, List.dropLast_concat]
  congr 1
  refine List.filter_congr fun above habove => (opensScope_of_members ?_).symm
  exact Package.members_of_mem_along h habove

/-- What opens no scope at the end of a way is passed over: up to the last declaration that opens
one, the same scopes are opened. -/
theorem openersAlong_last {p : Package} {way : Path} {last : Site}
    (hway : way = [] ∨ ∃ site, p.site? way = some site)
    (hlast : (p.openersAlong way).getLast? = some last) :
    p.openersAlong way = p.openersAlong last.path := by
  induction way using List.reverseRecOn with
  | nil => cases hlast
  | append_singleton way i ih =>
    obtain ⟨site, hsite⟩ := hway.resolve_left (by simp)
    have halong := openersAlong_concat hsite
    cases hopens : site.declaration.opensScope with
    | true =>
      rw [hopens, if_pos rfl] at halong
      rw [halong, List.getLast?_concat] at hlast
      obtain rfl := Option.some.inj hlast
      rw [Package.path_of_site? hsite]
    | false =>
      rw [hopens, if_neg Bool.false_ne_true, List.append_nil] at halong
      rw [halong] at hlast ⊢
      refine ih ?_ hlast
      exact (eq_or_ne way []).imp_right fun hne =>
        (Package.site?_concat hsite hne).imp fun _ h => h.1

/-- **The scope around the scope of a declaration** is that of the nearest data type or trait around
it, or the root. -/
theorem chainOf?_enclosing {p : Package} {site : Site} (h : site ∈ p.openers) :
    ∃ outer, (ofPackage p).chainOf? site.path = some (opened site :: outer) ∧
      some outer = (p.enclosing? site.path).elim (some [ofPackage p])
        fun around => (ofPackage p).chainOf? around.path := by
  have hchain := chainOf?_of_opener h
  obtain ⟨hmem, hopens⟩ := List.mem_filter.mp h
  have hsite := Package.mem_sites.mp hmem
  obtain hpath | ⟨way, i, hpath⟩ := List.eq_nil_or_concat' site.path
  · rw [hpath] at hsite
    cases hsite
  · rw [hpath] at hsite hchain ⊢
    rw [openersAlong_concat hsite, if_pos hopens, List.reverse_append, List.map_append] at hchain
    refine ⟨_, hchain, ?_⟩
    rw [enclosing?_concat hsite]
    cases hlast : (p.openersAlong way).getLast? with
    | none =>
      rw [List.getLast?_eq_none_iff.mp hlast]
      rfl
    | some last =>
      obtain ⟨halong, hopens⟩ := List.mem_filter.mp (List.mem_of_getLast? hlast)
      have hopener : last ∈ p.openers :=
        List.mem_filter.mpr ⟨Package.mem_sites.mpr (Package.mem_along.mp halong).2, hopens⟩
      have hway : way = [] ∨ ∃ site, p.site? way = some site :=
        (eq_or_ne way []).imp_right fun hne => (Package.site?_concat hsite hne).imp fun _ h => h.1
      rw [Option.elim_some, chainOf?_of_opener hopener, openersAlong_last hway hlast]
      rfl

mutual

/-- A way up ends in the root of the tree, and each scope on it is inside the next one. -/
theorem chainOf?_nested {path : Path} : ∀ {s : Scope} {chain : List Scope},
    s.chainOf? path = some chain →
      chain.getLast? = some s ∧ chain.IsChain fun inner outer => inner ∈ outer.children
  | .mk owner entries children, chain, h => by
    unfold chainOf? at h
    split at h
    · rw [← Option.some.inj h]
      exact ⟨rfl, List.isChain_singleton _⟩
    · obtain ⟨below, hbelow, rfl⟩ := Option.map_eq_some_iff.mp h
      obtain ⟨s, hs, hlast, hnested⟩ := chainBelow?_nested hbelow
      refine ⟨List.getLast?_concat, List.isChain_append.mpr
        ⟨hnested, List.isChain_singleton _, fun x hx y hy => ?_⟩⟩
      obtain rfl : s = x := Option.some.inj (hlast.symm.trans hx)
      obtain rfl : mk owner entries children = y := Option.some.inj hy
      exact hs

theorem chainBelow?_nested {path : Path} : ∀ {trees : List Scope} {chain : List Scope},
    chainBelow? path trees = some chain → ∃ s ∈ trees,
      chain.getLast? = some s ∧ chain.IsChain fun inner outer => inner ∈ outer.children
  | [], _, h => by cases h
  | s :: rest, chain, h => by
    unfold chainBelow? at h
    split at h
    · rename_i found hfound
      rw [← Option.some.inj h]
      exact ⟨s, List.mem_cons_self, chainOf?_nested hfound⟩
    · obtain ⟨t, ht, hchain⟩ := chainBelow?_nested h
      exact ⟨t, List.mem_cons_of_mem _ ht, hchain⟩

end

/-! ## Looking up -/

/-- **The nearest scope of a chain that has a name** answers for it. -/
theorem lookup_eq_some_iff {name : Bytes} {chain : List Scope} {symbol : Symbol}
    {holder : Scope} :
    lookup name chain = some (symbol, holder) ↔
      ∃ inner outer, chain = inner ++ holder :: outer ∧ holder.local? name = some symbol ∧
        ∀ s ∈ inner, s.local? name = none := by
  induction chain with
  | nil => exact ⟨nofun, fun ⟨_, _, h, _⟩ => absurd h (by simp)⟩
  | cons s rest ih =>
    unfold lookup
    cases hs : s.local? name with
    | some found =>
      constructor
      · intro h
        obtain ⟨rfl, rfl⟩ := Prod.mk.inj (Option.some.inj h)
        exact ⟨[], rest, rfl, hs, fun _ h => nomatch h⟩
      · rintro ⟨inner, outer, hchain, hholder, hinner⟩
        cases inner with
        | nil =>
          obtain ⟨rfl, -⟩ := List.cons.inj hchain
          rw [Option.some.inj (hs.symm.trans hholder)]
        | cons t inner =>
          obtain ⟨rfl, -⟩ := List.cons.inj hchain
          exact nomatch hs.symm.trans (hinner s List.mem_cons_self)
    | none =>
      rw [ih]
      constructor
      · rintro ⟨inner, outer, rfl, hholder, hinner⟩
        exact ⟨s :: inner, outer, rfl, hholder, List.forall_mem_cons.mpr ⟨hs, hinner⟩⟩
      · rintro ⟨inner, outer, hchain, hholder, hinner⟩
        cases inner with
        | nil =>
          obtain ⟨rfl, -⟩ := List.cons.inj hchain
          exact nomatch hs.symm.trans hholder
        | cons t inner =>
          obtain ⟨rfl, rfl⟩ := List.cons.inj hchain
          exact ⟨inner, outer, rfl, hholder, fun s h => hinner s (List.mem_cons_of_mem _ h)⟩

theorem lookup_eq_none_iff {name : Bytes} {chain : List Scope} :
    lookup name chain = none ↔ ∀ s ∈ chain, s.local? name = none := by
  induction chain with
  | nil => exact ⟨fun _ => List.forall_mem_nil _, fun _ => rfl⟩
  | cons s rest ih =>
    unfold lookup
    cases hs : s.local? name <;> simp [hs, ih]

/-! ## The scope tree -/

/-- **The scope that a declaration opens**, and the scopes around it from the innermost outwards. -/
structure Opens (p : Package) (site : Site) (scope : Scope) (outer : List Scope) : Prop where
  /-- The way up from the scope to the root. -/
  chain : (ofPackage p).chainOf? site.path = some (scope :: outer)
  owner : scope.owner = some site
  /-- Around it is the scope of the nearest data type or trait, or the root. -/
  around : some outer = (p.enclosing? site.path).elim (some [ofPackage p])
    fun around => (ofPackage p).chainOf? around.path
  /-- Each scope is inside the next one. -/
  nested : (scope :: outer).IsChain fun inner outer => inner ∈ outer.children
  /-- A name is its last type parameter, member or value parameter of that name. -/
  names : ∀ name, LastOf (site.Candidate name) (scope.local? name)

theorem opens {p : Package} {site : Site} (h : site ∈ p.openers) :
    ∃ outer, Opens p site (opened site) outer := by
  obtain ⟨outer, hchain, haround⟩ := chainOf?_enclosing h
  exact ⟨outer, hchain, rfl, haround, (chainOf?_nested hchain).2, opened_names site⟩

/-- **The scope tree is the nesting of the declarations.**

Building it step by step succeeds. The declarations that open a scope are the data types, traits,
aliases and functions at any depth, and besides theirs there is only the root scope. Each opens a
scope inside that of the nearest data type or trait around it, with the last candidate of every name
in it; the root has the last top-level declaration of every name. From any scope a name is found in
the nearest one that has it. -/
theorem nesting (p : Package) :
    build? p = some (ofPackage p, p.openers) ∧
    (∀ site, site ∈ p.openers ↔
      p.site? site.path = some site ∧ site.declaration.opensScope = true) ∧
    p.openers.Pairwise (fun s t => s.path ≠ t.path) ∧
    (ofPackage p).size = p.openers.length + 1 ∧
    (∀ path, ((ofPackage p).chainOf? path).isSome ↔ ∃ site ∈ p.openers, site.path = path) ∧
    (∀ site ∈ p.openers, ∃ scope outer, Opens p site scope outer) ∧
    (∀ name, LastOf (p.Candidate name) ((ofPackage p).local? name)) ∧
    (∀ name chain symbol holder, lookup name chain = some (symbol, holder) ↔
      ∃ inner outer, chain = inner ++ holder :: outer ∧ holder.local? name = some symbol ∧
        ∀ s ∈ inner, s.local? name = none) ∧
    (∀ name chain, lookup name chain = none ↔ ∀ s ∈ chain, s.local? name = none) := by
  refine ⟨build?_eq p, fun site => ?_, p.sites_pairwise.filter _, size_ofPackage p, fun path => ?_,
    fun site h => ⟨opened site, opens h⟩, ofPackage_names p, fun _ _ _ _ => lookup_eq_some_iff,
    fun _ _ => lookup_eq_none_iff⟩
  · rw [Package.openers, List.mem_filter, Package.mem_sites]
  · exact isSome_chainOf?

/-- A function in an implementation in a data type: no scope stands between the two. -/
example :
    let put : Skeleton.Declaration := .function [] none (utf8 "put") [] [] none []
    let p : Package :=
      ⟨[], [.data [] .none (utf8 "Box") [] [] [] [.impl [] .nothing .nothing [put]]]⟩
    ((ofPackage p).chainOf? [0, 0, 0]).map (·.map fun s => s.owner.map Site.path) =
      some [some [0, 0, 0], some [0], none] := by
  decide +kernel

end Scope

end Yurin
