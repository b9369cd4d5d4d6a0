import Yurin.Scope
import Yurin.Proofs.Skeleton.Sites

/-!
# Building a scope tree step by step

`Scope.ofPackage` says which scopes a package has. `Scope.build?` builds the same tree the way a
walk through the declarations does it, with one current scope: it enters the scope of a declaration,
declares type parameters and members in it, visits the members, declares the value parameters and
leaves the scope again. Leaving the root scope is not possible, and at the end the walk must be back
at the root: these are the two ways in which it fails.

* `Scope.opened` is the scope that a declaration opens, and `ofDeclaration_eq` says for every kind
  of declaration which scopes it contributes.
* `visit?_eq`: a visit adds these scopes to the current one and changes nothing else.

Result: `build?_eq`. The walk never fails and builds the tree of the package, and the declarations
that it registers are those of the package that open a scope, each once.
-/

namespace Yurin

open Skeleton

/-- Whether a declaration opens a scope. -/
def Skeleton.Declaration.opensScope (d : Skeleton.Declaration) : Bool :=
  match d.kind with
  | .data | .trait | .typealias | .function => true
  | .effect | .impl | .property => false

/-- The declarations of a package that open a scope, at any depth. -/
def Skeleton.Package.openers (p : Package) : List Site :=
  p.sites.filter (·.declaration.opensScope)

namespace Scope

@[simp] theorem owner_mk (owner : Option Site) (entries : List (Bytes × Symbol))
    (children : List Scope) : (mk owner entries children).owner = owner := rfl

@[simp] theorem entries_mk (owner : Option Site) (entries : List (Bytes × Symbol))
    (children : List Scope) : (mk owner entries children).entries = entries := rfl

@[simp] theorem children_mk (owner : Option Site) (entries : List (Bytes × Symbol))
    (children : List Scope) : (mk owner entries children).children = children := rfl

/-! ## The scopes of a declaration -/

/-- The scope that a declaration opens. -/
def opened (site : Site) : Scope :=
  .mk (some site)
    (typeParameterEntries site.path site.declaration.typeParameters
      ++ declarationEntries site.path 0 site.declaration.members
      ++ parameterEntries site.path site.declaration.parameters)
    (ofDeclarations site.path 0 site.declaration.members)

/-- **The scopes that a declaration contributes**: the one that it opens, or those in it. -/
theorem ofDeclaration_eq (path : Path) (d : Skeleton.Declaration) :
    ofDeclaration path d =
      if d.opensScope then [opened ⟨path, d⟩] else ofDeclarations path 0 d.members := by
  have hnone : parameterEntries path [] = [] := rfl
  cases d <;>
    simp [ofDeclaration, ofDeclarations, declarationEntries, opened, Declaration.opensScope,
      Skeleton.Declaration.kind, Skeleton.Declaration.members, Skeleton.Declaration.parameters,
      Skeleton.Declaration.typeParameters, hnone]

theorem ofDeclarations_cons (path : Path) (i : Nat) (d : Skeleton.Declaration)
    (rest : List Skeleton.Declaration) :
    ofDeclarations path i (d :: rest) =
      ofDeclaration (path ++ [i]) d ++ ofDeclarations path (i + 1) rest := by
  rw [ofDeclarations]

/-! ## The walk -/

/-- A scope tree under construction: the current scope, the scopes around it from the innermost
outwards, each with the scopes that were closed in it, and the declarations that have opened a scope
so far. -/
structure Builder where
  current : Scope
  outer : List Scope
  registered : List Site

namespace Builder

/-- The walk starts in a root scope without entries. -/
def start : Builder := ⟨.mk none [] [], [], []⟩

/-- Opens a scope in the current one. -/
def enter (site : Site) (b : Builder) : Builder :=
  ⟨.mk (some site) [] [], b.current :: b.outer, b.registered ++ [site]⟩

/-- Goes back to the scope around the current one. There is none around the root. -/
def exit? (b : Builder) : Option Builder :=
  match b.outer with
  | [] => none
  | .mk owner entries children :: outer =>
    some ⟨.mk owner entries (children ++ [b.current]), outer, b.registered⟩

/-- Declares names in the current scope, one after the other. -/
def declareAll (entries : List (Bytes × Symbol)) (b : Builder) : Builder :=
  { b with current := entries.foldl (fun s entry => s.declare entry.1 entry.2) b.current }

mutual

/-- Visits the declaration at a path. -/
def visit? (path : Path) : Skeleton.Declaration → Builder → Option Builder
  | .data modifiers flavor name types parameters bindings members, b => do
    let b := b.enter ⟨path, .data modifiers flavor name types parameters bindings members⟩
    let b := b.declareAll (typeParameterEntries path types)
    let b := b.declareAll (declarationEntries path 0 members)
    let b ← visitAll? path 0 members b
    (b.declareAll (parameterEntries path parameters)).exit?
  | .trait modifiers name types inherits members, b => do
    let b := b.enter ⟨path, .trait modifiers name types inherits members⟩
    let b := b.declareAll (typeParameterEntries path types)
    let b := b.declareAll (declarationEntries path 0 members)
    let b ← visitAll? path 0 members b
    b.exit?
  | .typealias modifiers name types expanded, b =>
    let b := b.enter ⟨path, .typealias modifiers name types expanded⟩
    (b.declareAll (typeParameterEntries path types)).exit?
  | .function modifiers receiver name types parameters returns effects, b =>
    let b := b.enter ⟨path, .function modifiers receiver name types parameters returns effects⟩
    let b := b.declareAll (typeParameterEntries path types)
    (b.declareAll (parameterEntries path parameters)).exit?
  | .impl _ _ _ members, b => visitAll? path 0 members b
  | .effect .., b | .property .., b => some b

/-- Visits the declarations below a path, the first of them at position `i`. -/
def visitAll? (path : Path) (i : Nat) : List Skeleton.Declaration → Builder → Option Builder
  | [], b => some b
  | d :: rest, b => do
    let b ← visit? (path ++ [i]) d b
    visitAll? path (i + 1) rest b

end

/-! ## What a visit adds -/

/-- The walk after more scopes were closed in the current one. -/
def grow (scopes : List Scope) (sites : List Site) (b : Builder) : Builder :=
  ⟨.mk b.current.owner b.current.entries (b.current.children ++ scopes), b.outer,
   b.registered ++ sites⟩

theorem grow_nil (b : Builder) : b.grow [] [] = b := by
  obtain ⟨⟨owner, entries, children⟩, outer, registered⟩ := b
  simp [grow]

theorem grow_grow (scopes more : List Scope) (sites others : List Site) (b : Builder) :
    (b.grow scopes sites).grow more others = b.grow (scopes ++ more) (sites ++ others) := by
  simp [grow]

theorem declareAll_eq (entries : List (Bytes × Symbol)) (b : Builder) :
    b.declareAll entries =
      ⟨.mk b.current.owner (b.current.entries ++ entries) b.current.children, b.outer,
       b.registered⟩ := by
  induction entries generalizing b with
  | nil =>
    obtain ⟨⟨owner, entries, children⟩, outer, registered⟩ := b
    simp [declareAll]
  | cons entry rest ih =>
    have hstep : b.declareAll (entry :: rest) =
        Builder.declareAll rest { b with current := b.current.declare entry.1 entry.2 } := rfl
    rw [hstep, ih]
    simp [declare]

theorem declareAll_declareAll (entries more : List (Bytes × Symbol)) (b : Builder) :
    (b.declareAll entries).declareAll more = b.declareAll (entries ++ more) := by
  simp [declareAll_eq]

/-- Opening a scope, filling it and leaving it again adds it to the scope around it. -/
theorem exit?_filled (b : Builder) (site : Site) (before after : List (Bytes × Symbol))
    (scopes : List Scope) (sites : List Site) :
    ((((b.enter site).declareAll before).grow scopes sites).declareAll after).exit? =
      some (b.grow [.mk (some site) (before ++ after) scopes] (site :: sites)) := by
  obtain ⟨⟨owner, entries, children⟩, outer, registered⟩ := b
  simp [declareAll_eq, enter, grow, exit?]

theorem visitAll?_eq {path : Path} {i : Nat} {ds : List Skeleton.Declaration} (b : Builder)
    (h : ∀ d ∈ ds, ∀ path b, visit? path d b =
      some (b.grow (ofDeclaration path d) ((d.sites path).filter (·.declaration.opensScope)))) :
    visitAll? path i ds b = some (b.grow (ofDeclarations path i ds)
      ((sitesOf path i ds).filter (·.declaration.opensScope))) := by
  induction ds generalizing i b with
  | nil => exact congrArg some b.grow_nil.symm
  | cons d rest ih =>
    rw [visitAll?, h d List.mem_cons_self, Option.bind_eq_bind, Option.bind_some,
      ih _ fun d hd => h d (List.mem_cons_of_mem _ hd), grow_grow, ofDeclarations, sitesOf,
      List.filter_append]

/-- **A visit** adds the scopes of the declaration to the current scope, registers the declarations
in it that open one, and is back where it started. -/
theorem visit?_eq (path : Path) (d : Skeleton.Declaration) (b : Builder) :
    visit? path d b =
      some (b.grow (ofDeclaration path d) ((d.sites path).filter (·.declaration.opensScope))) := by
  induction d using Declaration.memberInduction generalizing path b with
  | step d ih =>
    have hmembers (b : Builder) :
        visitAll? path 0 d.members b = some (b.grow (ofDeclarations path 0 d.members)
          ((sitesOf path 0 d.members).filter (·.declaration.opensScope))) :=
      visitAll?_eq b ih
    rw [Declaration.sites_eq]
    cases d with
    | data modifiers flavor name types parameters bindings members =>
      simp only [Skeleton.Declaration.members] at hmembers
      rw [visit?, declareAll_declareAll, hmembers, Option.bind_eq_bind, Option.bind_some,
        exit?_filled]
      rfl
    | trait modifiers name types inherits members =>
      simp only [Skeleton.Declaration.members] at hmembers
      rw [visit?, declareAll_declareAll, hmembers, Option.bind_eq_bind, Option.bind_some]
      refine (exit?_filled b _ _ [] _ _).trans ?_
      rw [List.append_nil]
      rfl
    | typealias modifiers name types expanded =>
      rw [visit?, ← grow_nil (declareAll _ _)]
      refine (exit?_filled b _ _ [] _ _).trans ?_
      rw [List.append_nil]
      rfl
    | function modifiers receiver name types parameters returns effects =>
      rw [visit?, ← grow_nil (declareAll (typeParameterEntries path types) _)]
      exact exit?_filled b _ _ _ _ _
    | impl modifiers dataType traitType members => exact hmembers b
    | effect | property => exact congrArg some b.grow_nil.symm

end Builder

/-- Builds the scope tree of a package, and lists the declarations that open a scope. -/
def build? (p : Package) : Option (Scope × List Site) := do
  let b := Builder.start.declareAll (declarationEntries [] 0 p.declarations)
  let b ← b.visitAll? [] 0 p.declarations
  if b.outer.isEmpty then some (b.current, b.registered) else none

/-- **The walk builds the tree of the package.** It never leaves the root scope and comes back to
it, and it registers the declarations that open a scope. -/
theorem build?_eq (p : Package) : build? p = some (ofPackage p, p.openers) := by
  have hvisit (b : Builder) : b.visitAll? [] 0 p.declarations =
      some (b.grow (ofDeclarations [] 0 p.declarations) p.openers) :=
    Builder.visitAll?_eq b fun d _ path b => Builder.visit?_eq path d b
  rw [build?, hvisit]
  simp [Builder.grow, Builder.declareAll_eq, Builder.start, ofPackage]

end Scope

end Yurin
