import Yurin.Proofs.Skeleton.Building
import Yurin.Proofs.Skeleton.Sites

/-!
# The index of a skeleton

Building a skeleton writes an entry for each declaration that it keeps, also where error recovery
left others out. The entries inside a declaration are those of its members, since its parameters
have a table of their own (`declarationOf_sites`). So the entries of a file are the declarations of
the package, in the order of `Package.sites` (`ofFile_sites`), and what is found in the index stands
at its place (`ofFile_declaration?`).
-/

namespace Yurin.Skeleton

/-- The entries of a list of declarations are these and those in them, when it is so for each. -/
theorem declarationsOf_sites {path : Path} {i : Nat} {ds : List Yurin.Declaration}
    {es : List Declaration} {index : Index}
    (hds : ∀ d ∈ ds, ∀ path built, declarationOf path d = .ok (some built) →
      built.inner.declarations.map (·.2) = sitesOf path 0 built.declaration.members)
    (h : declarationsOf path i ds = .ok (es, index)) :
    index.declarations.map (·.2) = sitesOf path i es := by
  induction ds generalizing i es index with
  | nil =>
    obtain ⟨rfl, rfl⟩ := Prod.mk.inj (Except.ok.inj h)
    rfl
  | cons d rest ih =>
    have hothers := fun d (hd : d ∈ rest) => hds d (List.mem_cons_of_mem _ hd)
    rw [declarationsOf] at h
    obtain ⟨found, hd, h⟩ := Except.bind_eq_ok_iff.mp h
    cases found with
    | none => exact ih hothers h
    | some built =>
      obtain ⟨⟨more, index'⟩, hmore, h⟩ := Except.bind_eq_ok_iff.mp h
      obtain ⟨rfl, rfl⟩ := Prod.mk.inj (Except.ok.inj h)
      rw [sitesOf, Declaration.sites_eq, ← hds d List.mem_cons_self _ _ hd, ← ih hothers hmore]
      simp

/-- **The entries inside a declaration** are those of its members. -/
theorem declarationOf_sites {d : Yurin.Declaration} (path : Path) (built : Built)
    (h : declarationOf path d = .ok (some built)) :
    built.inner.declarations.map (·.2) = sitesOf path 0 built.declaration.members := by
  induction d using Yurin.Declaration.bodyInduction generalizing path built with
  | step d ih =>
    obtain ⟨-, -, inner, hinner, hmembers⟩ := declarationOf_shows h
    have hinside := declarationsOf_sites ih hmembers
    rw [hinner]
    exact hinside

/-- **The index of a file lists the declarations of its package**, each once and in order. -/
theorem ofFile_sites {file : SourceFile} {package : Package} {index : Index}
    (h : ofFile file = .ok (package, index)) :
    index.declarations.map (·.2) = package.sites := by
  obtain ⟨⟨declarations, entries⟩, hdeclarations, h⟩ := Except.bind_eq_ok_iff.mp h
  obtain ⟨rfl, rfl⟩ := Prod.mk.inj (Except.ok.inj h)
  exact declarationsOf_sites (fun _ _ => declarationOf_sites) hdeclarations

/-- What is found in the index of a file stands at its place in the package. -/
theorem ofFile_declaration? {file : SourceFile} {package : Package} {index : Index}
    (h : ofFile file = .ok (package, index)) {keyword : Token} {site : Site}
    (hsite : index.declaration? keyword = some site) : package.site? site.path = some site := by
  obtain ⟨before, after, hsplit, -⟩ := List.lookup_eq_some_iff.mp hsite
  rw [← Package.mem_sites, ← ofFile_sites h, hsplit]
  simp

end Yurin.Skeleton
