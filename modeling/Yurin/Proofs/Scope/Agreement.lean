import Yurin.Highlight.Referenced
import Yurin.Parser

/-!
# The binder and the resolver

Two tables answer what a name at the top level stands for. The root scope keeps the last declaration
of a name, since a later entry hides an earlier one, and `Package.lookup` takes the first one. Both
follow further segments in the same way (`Site.follow`).

`bind_agrees_iff`: a reference whose first segment is found in the root scope is bound to the last
top-level declaration of that name, and the bindings are the matches of `Package.resolveLocal` if
and only if no other top-level declaration has the name.

* `Package.named` lists the top-level declarations of a name. The two tables are its ends:
  `lookup_eq_head?` and `local?_ofPackage`.
* `occurrences` lists the references of a file, each with the chain of scopes around it, and `bind`
  is made of their bindings (`bindNode_eq`).
* Of the scopes around a reference only the root has no owner (`eq_root_of_mem_chain`).
-/

namespace Yurin

open Skeleton

/-! ## The declarations of a name -/

namespace Skeleton

/-- The declarations with a name, each with its place at the top level; the first declaration stands
at position `i`. -/
def namedFrom (name : Bytes) : (i : Nat) → List Declaration → List Site
  | _, [] => []
  | i, d :: rest =>
    if d.name? = some name then ⟨[i], d⟩ :: namedFrom name (i + 1) rest
    else namedFrom name (i + 1) rest

/-- The top-level declarations with a name, in order. -/
def Package.named (p : Package) (name : Bytes) : List Site := namedFrom name 0 p.declarations

variable {name : Bytes} {i : Nat} {declarations : List Declaration}

/-- A search from the top takes the first. -/
theorem findNamed_eq (name : Bytes) (i : Nat) (declarations : List Declaration) :
    (findNamed name i declarations).map (fun found => ⟨[found.1], found.2⟩) =
      (namedFrom name i declarations).head? := by
  induction declarations generalizing i with
  | nil => rfl
  | cons d rest ih =>
    unfold findNamed namedFrom
    by_cases h : d.name? = some name
    · simp [h]
    · simp [h, ih]

theorem Package.lookup_eq_head? (p : Package) (name : Bytes) :
    p.lookup name = (p.named name).head? :=
  findNamed_eq name 0 p.declarations

theorem mem_namedFrom {site : Site} (h : site ∈ namedFrom name i declarations) :
    ∃ j, i ≤ j ∧ site.path = [j] := by
  induction declarations generalizing i with
  | nil => cases h
  | cons d rest ih =>
    unfold namedFrom at h
    have hrest (h : site ∈ namedFrom name (i + 1) rest) : ∃ j, i ≤ j ∧ site.path = [j] := by
      obtain ⟨j, hle, hpath⟩ := ih h
      exact ⟨j, Nat.le_of_succ_le hle, hpath⟩
    split at h
    · rcases List.mem_cons.mp h with rfl | h
      · exact ⟨i, Nat.le_refl i, rfl⟩
      · exact hrest h
    · exact hrest h

/-- Declarations of one name stand at different places. -/
theorem namedFrom_pairwise (name : Bytes) (i : Nat) (declarations : List Declaration) :
    (namedFrom name i declarations).Pairwise fun s t => s.path ≠ t.path := by
  induction declarations generalizing i with
  | nil => exact .nil
  | cons d rest ih =>
    unfold namedFrom
    split
    · refine .cons (fun site h => ?_) (ih (i + 1))
      obtain ⟨j, hle, hpath⟩ := mem_namedFrom h
      rw [hpath]
      simp only [ne_eq, List.cons.injEq, and_true]
      omega
    · exact ih (i + 1)

/-- The first and the last declaration of a name are the same if and only if there is only one. -/
theorem Package.named_ends {p : Package} {name : Bytes} {first last : Site}
    (hfirst : (p.named name).head? = some first) (hlast : (p.named name).getLast? = some last) :
    first = last ↔ (p.named name).length = 1 := by
  have hpairwise := namedFrom_pairwise name 0 p.declarations
  rw [← Package.named] at hpairwise
  cases hsites : p.named name with
  | nil => rw [hsites] at hfirst; cases hfirst
  | cons site rest =>
    rw [hsites] at hfirst hlast hpairwise
    obtain rfl : site = first := by simpa using hfirst
    cases rest with
    | nil => simpa using hlast
    | cons next rest =>
      -- The last one is among those behind the first, which stand at other places.
      have hmem : last ∈ next :: rest := by
        rw [List.getLast?_cons_cons] at hlast
        exact List.mem_of_getLast? hlast
      have hne : site ≠ last := fun h => (List.pairwise_cons.mp hpairwise).1 last hmem (h ▸ rfl)
      simp [hne]

end Skeleton

namespace Scope

/-- The last entry of a name is that of the last declaration. -/
theorem lookup_declarationEntries (name : Bytes) (i : Nat)
    (declarations : List Skeleton.Declaration) :
    (declarationEntries [] i declarations).reverse.lookup name =
      (namedFrom name i declarations).getLast?.map .declaration := by
  induction declarations generalizing i with
  | nil => rfl
  | cons d rest ih =>
    unfold declarationEntries namedFrom
    rw [List.reverse_append, List.lookup_append, ih]
    by_cases h : d.name? = some name
    -- An entry of this name counts only if no later one has the name.
    · rw [if_pos h, h, List.getLast?_cons]
      cases (namedFrom name (i + 1) rest).getLast? <;> simp
    · rw [if_neg h]
      have hother : (d.name?.toList.map fun n =>
          (n, Symbol.declaration ⟨[] ++ [i], d⟩)).reverse.lookup name = none := by
        rw [List.lookup_eq_none_iff]
        intro entry hentry
        obtain ⟨n, hn, rfl⟩ := List.mem_map.mp (List.mem_reverse.mp hentry)
        refine bne_iff_ne.mpr fun heq => h ?_
        rw [Option.mem_toList.mp hn, heq]
      rw [hother, Option.or_none]

/-- **The root scope** has the last of the top-level declarations of a name. -/
theorem local?_ofPackage (p : Package) (name : Bytes) :
    (ofPackage p).local? name = (p.named name).getLast?.map .declaration :=
  lookup_declarationEntries name 0 p.declarations

end Scope

/-! ## Owners -/

namespace Scope

mutual

/-- Every scope of a tree has an owner. -/
def Owned : Scope → Prop
  | .mk owner _ children => owner ≠ none ∧ OwnedAll children

/-- Every scope of several trees has an owner. -/
def OwnedAll : List Scope → Prop
  | [] => True
  | s :: rest => s.Owned ∧ OwnedAll rest

end

theorem ownedAll_append {xs ys : List Scope} (hx : OwnedAll xs) (hy : OwnedAll ys) :
    OwnedAll (xs ++ ys) := by
  induction xs with
  | nil => exact hy
  | cons s rest ih => exact ⟨hx.1, ih hx.2⟩

mutual

theorem ofDeclaration_owned (path : Path) :
    ∀ d : Skeleton.Declaration, OwnedAll (ofDeclaration path d)
  | .data _ _ _ _ _ _ members => ⟨⟨nofun, ofDeclarations_owned path 0 members⟩, trivial⟩
  | .trait _ _ _ _ members => ⟨⟨nofun, ofDeclarations_owned path 0 members⟩, trivial⟩
  | .typealias .. => ⟨⟨nofun, trivial⟩, trivial⟩
  | .function .. => ⟨⟨nofun, trivial⟩, trivial⟩
  | .impl _ _ _ members => ofDeclarations_owned path 0 members
  | .effect .. => trivial
  | .property .. => trivial

theorem ofDeclarations_owned (path : Path) (i : Nat) :
    ∀ ds : List Skeleton.Declaration, OwnedAll (ofDeclarations path i ds)
  | [] => trivial
  | d :: rest =>
    ownedAll_append (ofDeclaration_owned (path ++ [i]) d) (ofDeclarations_owned path (i + 1) rest)

end

mutual

/-- The scopes on the way up in an owned tree have owners. -/
theorem mem_chainOf? {path : Path} : ∀ {s : Scope} {chain : List Scope}, s.Owned →
    s.chainOf? path = some chain → ∀ t ∈ chain, t.owner ≠ none
  | .mk owner entries children, chain, howned, hchain => by
    unfold chainOf? at hchain
    split at hchain
    · rw [← Option.some.inj hchain]
      exact List.forall_mem_singleton.mpr howned.1
    · obtain ⟨below, hbelow, rfl⟩ := Option.map_eq_some_iff.mp hchain
      refine List.forall_mem_append.mpr ⟨mem_chainBelow? howned.2 hbelow, ?_⟩
      exact List.forall_mem_singleton.mpr howned.1

theorem mem_chainBelow? {path : Path} : ∀ {trees : List Scope} {chain : List Scope},
    OwnedAll trees → chainBelow? path trees = some chain → ∀ t ∈ chain, t.owner ≠ none
  | [], _, _, hchain => by cases hchain
  | s :: rest, chain, howned, hchain => by
    unfold chainBelow? at hchain
    split at hchain
    · rename_i found hfound
      rw [← Option.some.inj hchain]
      exact mem_chainOf? howned.1 hfound
    · exact mem_chainBelow? howned.2 hchain

end

/-- On the way up to the root of a package only the root has no owner. -/
theorem eq_ofPackage_of_mem {p : Package} {path : Path} {chain : List Scope}
    (h : (ofPackage p).chainOf? path = some chain) {s : Scope} (hs : s ∈ chain)
    (howner : s.owner = none) : s = ofPackage p := by
  unfold ofPackage chainOf? at h
  rw [if_neg (by simp)] at h
  obtain ⟨below, hbelow, rfl⟩ := Option.map_eq_some_iff.mp h
  rcases List.mem_append.mp hs with hs | hs
  · exact absurd howner (mem_chainBelow? (ofDeclarations_owned [] 0 p.declarations) hbelow s hs)
  · exact List.mem_singleton.mp hs

/-- What is found in a chain is found in one of its scopes. -/
theorem lookup_eq_some {name : Bytes} {chain : List Scope} {symbol : Symbol} {holder : Scope}
    (h : lookup name chain = some (symbol, holder)) :
    holder ∈ chain ∧ holder.local? name = some symbol := by
  induction chain with
  | nil => cases h
  | cons s outer ih =>
    unfold lookup at h
    split at h
    · rename_i found hfound
      obtain ⟨rfl, rfl⟩ := Prod.mk.inj (Option.some.inj h)
      exact ⟨List.mem_cons_self, hfound⟩
    · exact ⟨List.mem_cons_of_mem _ (ih h).1, (ih h).2⟩

end Scope

/-! ## Occurrences of references -/

/-- A reference in a file, and the scopes around it from the innermost outwards. -/
structure Occurrence where
  chain : List Scope
  parts : List Identifier

mutual

/-- The references below a node in a chain of scopes. -/
def occurrences (opened : Token → Option (List Scope)) (chain : List Scope) :
    Node → List Occurrence
  | .mk (.reference parts) _ => [⟨chain, parts⟩]
  | .mk (.declaration _ keyword) children =>
    occurrencesAll opened ((opened keyword).getD chain) children
  | .mk _ children => occurrencesAll opened chain children

/-- The references below several nodes. -/
def occurrencesAll (opened : Token → Option (List Scope)) (chain : List Scope) :
    List Node → List Occurrence
  | [] => []
  | node :: rest => occurrences opened chain node ++ occurrencesAll opened chain rest

end

/-- The references of a file, each in the scopes around it. -/
def SourceFile.occurrences (file : SourceFile) (index : Index) (root : Scope) : List Occurrence :=
  Yurin.occurrences
    (fun keyword => (index.declaration? keyword).bind fun site => root.chainOf? site.path)
    [root] file.node

section Occurrences

variable {opened : Token → Option (List Scope)} {chain : List Scope}

mutual

/-- The occurrences are those of all references. -/
theorem occurrences_parts : ∀ (chain : List Scope) (node : Node),
    (occurrences opened chain node).map Occurrence.parts = node.references
  | chain, .mk label children => by
    cases label with
    | reference parts => rfl
    | declaration kind keyword => exact occurrencesAll_parts _ children
    | _ => exact occurrencesAll_parts chain children

theorem occurrencesAll_parts : ∀ (chain : List Scope) (nodes : List Node),
    (occurrencesAll opened chain nodes).map Occurrence.parts = referencesAll nodes
  | _, [] => rfl
  | chain, node :: rest => by
    rw [occurrencesAll, List.map_append, occurrences_parts, occurrencesAll_parts, referencesAll]

end

mutual

/-- The bindings below a node are those of its occurrences. -/
theorem bindNode_eq (package : Package) : ∀ (chain : List Scope) (node : Node),
    bindNode package opened chain node =
      (occurrences opened chain node).flatMap fun r => bindReference package r.chain r.parts
  | chain, .mk label children => by
    cases label with
    | reference parts => exact (List.append_nil _).symm
    | declaration kind keyword => exact bindNodes_eq package _ children
    | _ => exact bindNodes_eq package chain children

theorem bindNodes_eq (package : Package) : ∀ (chain : List Scope) (nodes : List Node),
    bindNodes package opened chain nodes =
      (occurrencesAll opened chain nodes).flatMap fun r => bindReference package r.chain r.parts
  | _, [] => rfl
  | chain, node :: rest => by
    rw [bindNodes, occurrencesAll, List.flatMap_append, bindNode_eq, bindNodes_eq]

end

mutual

/-- The scopes around an occurrence are those around the node, or were opened by a declaration. -/
theorem occurrences_chain {r : Occurrence} : ∀ (chain : List Scope) (node : Node),
    r ∈ occurrences opened chain node → r.chain = chain ∨ ∃ keyword, opened keyword = some r.chain
  | chain, .mk label children, h => by
    cases label with
    | reference parts =>
      obtain rfl := List.mem_singleton.mp h
      exact .inl rfl
    | declaration kind keyword =>
      rcases occurrencesAll_chain ((opened keyword).getD chain) children h with hchain | hopened
      · cases hkeyword : opened keyword with
        | none => exact .inl (by rw [hchain, hkeyword, Option.getD_none])
        | some inner => exact .inr ⟨keyword, by rw [hchain, hkeyword, Option.getD_some]⟩
      · exact .inr hopened
    | _ => exact occurrencesAll_chain chain children h

theorem occurrencesAll_chain {r : Occurrence} : ∀ (chain : List Scope) (nodes : List Node),
    r ∈ occurrencesAll opened chain nodes →
      r.chain = chain ∨ ∃ keyword, opened keyword = some r.chain
  | _, [], h => by cases h
  | chain, node :: rest, h => by
    rcases List.mem_append.mp h with h | h
    · exact occurrences_chain chain node h
    · exact occurrencesAll_chain chain rest h

end

end Occurrences

/-- **Of the scopes around a reference** only the root has no owner. -/
theorem eq_root_of_mem_chain {file : SourceFile} {package : Package} {index : Index}
    {r : Occurrence} (hr : r ∈ file.occurrences index (.ofPackage package)) {s : Scope}
    (hs : s ∈ r.chain) (howner : s.owner = none) : s = .ofPackage package := by
  rcases occurrences_chain _ _ hr with hchain | ⟨keyword, hopened⟩
  · rw [hchain] at hs
    exact List.mem_singleton.mp hs
  · obtain ⟨site, -, hsite⟩ := Option.bind_eq_some_iff.mp hopened
    exact Scope.eq_ofPackage_of_mem hsite hs howner

/-! ## Agreement -/

/-- The binding that a match makes of a reference with some parts. -/
def Skeleton.Match.binding? (parts : List Identifier) (m : Match) : Option Binding :=
  parts[m.segment]?.map fun part => ⟨part.token, .declaration m.site⟩

theorem Skeleton.Site.mem_follow {site : Site} {i : Nat} {names : List Bytes} {m : Match}
    (h : m ∈ site.follow i names) : m.segment < i + names.length := by
  induction names generalizing site i with
  | nil => cases h
  | cons name rest ih =>
    unfold follow at h
    split at h
    · cases h
    · rw [List.length_cons]
      rcases List.mem_cons.mp h with rfl | h
      · exact Nat.lt_add_of_pos_right (Nat.succ_pos _)
      · have := ih h
        omega

/-- Matches of segments that a reference has lose nothing when they are bound. -/
theorem map_bindMatches {parts : List Identifier} {found : List Match}
    (h : ∀ m ∈ found, m.segment < parts.length) :
    found.map (Match.binding? parts) = (bindMatches parts found).map some := by
  induction found with
  | nil => rfl
  | cons m rest ih =>
    obtain ⟨hm, hrest⟩ := List.forall_mem_cons.mp h
    have hbinding : m.binding? parts = some ⟨parts[m.segment].token, .declaration m.site⟩ := by
      rw [Match.binding?, List.getElem?_eq_getElem hm, Option.map_some]
    have hcons : bindMatches parts (m :: rest) =
        ⟨parts[m.segment].token, .declaration m.site⟩ :: bindMatches parts rest :=
      List.filterMap_cons_some hbinding
    rw [hcons, List.map_cons, List.map_cons, ih hrest, hbinding]

variable {package : Package} {chain : List Scope} {first : Identifier} {rest : List Identifier}

/-- A reference that begins in the root scope is bound from the last declaration of its first
name on. -/
theorem bindReference_root {symbol : Symbol}
    (h : Scope.lookup first.name chain = some (symbol, .ofPackage package)) :
    ∃ site, (package.named first.name).getLast? = some site ∧
      bindReference package chain (first :: rest) =
        ⟨first.token, .declaration site⟩ ::
          bindMatches (first :: rest) (site.follow 1 (rest.map Identifier.name)) := by
  have hlocal := (Scope.lookup_eq_some h).2
  rw [Scope.local?_ofPackage] at hlocal
  obtain ⟨site, hsite, rfl⟩ := Option.map_eq_some_iff.mp hlocal
  refine ⟨site, hsite, ?_⟩
  rw [bindReference, h]

/-- The bindings from the last declaration of a name on are the matches from the first one on if and
only if there is only one. -/
theorem resolveLocal_eq_iff {last : Site}
    (hlast : (package.named first.name).getLast? = some last) :
    (package.resolveLocal ((first :: rest).map Identifier.name)).map
        (Match.binding? (first :: rest)) =
      (⟨first.token, .declaration last⟩ ::
        bindMatches (first :: rest) (last.follow 1 (rest.map Identifier.name))).map some ↔
      (package.named first.name).length = 1 := by
  obtain ⟨top, htop⟩ : ∃ top, (package.named first.name).head? = some top := by
    cases hsites : package.named first.name with
    | nil => rw [hsites] at hlast; cases hlast
    | cons site _ => exact ⟨site, rfl⟩
  have hresolve : package.resolveLocal ((first :: rest).map Identifier.name) =
      ⟨0, top⟩ :: top.follow 1 (rest.map Identifier.name) := by
    rw [Package.resolveLocal, List.map_cons, Package.resolveFrom, Package.lookup_eq_head?, htop]
  rw [← Package.named_ends htop hlast, hresolve, List.map_cons, List.map_cons]
  refine ⟨fun h => ?_, fun h => ?_⟩
  · have hsame := Option.some.inj (List.cons.inj h).1
    exact Symbol.declaration.inj (Binding.mk.inj hsame).2
  · subst h
    refine congrArg _ (map_bindMatches fun m hm => ?_)
    have := Site.mem_follow hm
    rw [List.length_map] at this
    rw [List.length_cons]
    omega

/-- A reference of a file begins in the root scope: its first segment is found there, in the scope
without an owner. -/
structure BeginsInRoot (file : SourceFile) (package : Package) (index : Index) (r : Occurrence)
    (first : Identifier) (rest : List Identifier) : Prop where
  mem : r ∈ file.occurrences index (.ofPackage package)
  parts : r.parts = first :: rest
  found : ∃ symbol holder, Scope.lookup first.name r.chain = some (symbol, holder) ∧
    holder.owner = none

/-- The bindings of a reference are the matches of the resolver: the same segments, tied to the same
declarations. -/
def Occurrence.Agrees (package : Package) (r : Occurrence) : Prop :=
  (package.resolveLocal (r.parts.map Identifier.name)).map (Match.binding? r.parts) =
    (bindReference package r.chain r.parts).map some

namespace BeginsInRoot

variable {file : SourceFile} {index : Index} {r : Occurrence}

/-- It is bound from the last declaration of its first name on. -/
theorem bound (h : BeginsInRoot file package index r first rest) :
    ∃ last, (package.named first.name).getLast? = some last ∧
      bindReference package r.chain r.parts = ⟨first.token, .declaration last⟩ ::
        bindMatches r.parts (last.follow 1 (rest.map Identifier.name)) := by
  obtain ⟨symbol, holder, hlookup, howner⟩ := h.found
  obtain rfl := eq_root_of_mem_chain h.mem (Scope.lookup_eq_some hlookup).1 howner
  rw [h.parts]
  exact bindReference_root hlookup

/-- The binder and the resolver agree on it if and only if its first name is declared once. -/
theorem agrees_iff (h : BeginsInRoot file package index r first rest) :
    r.Agrees package ↔ (package.named first.name).length = 1 := by
  obtain ⟨last, hlast, hbound⟩ := h.bound
  rw [Occurrence.Agrees, hbound, h.parts]
  exact resolveLocal_eq_iff hlast

end BeginsInRoot

/-- **The binder and the resolver at the top level.** The bindings of a file are those of its
references, each in the scopes around it. A reference that begins in the root scope is bound from
the last top-level declaration of its first name on. These bindings are exactly the matches of
`Package.resolveLocal` if and only if no other top-level declaration has the name. -/
theorem bind_agrees_iff (file : SourceFile) (package : Package) (index : Index) :
    (file.occurrences index (.ofPackage package)).map Occurrence.parts = file.node.references ∧
    bind file package index (.ofPackage package) =
      (file.occurrences index (.ofPackage package)).flatMap
        (fun r => bindReference package r.chain r.parts) ∧
    ∀ r first rest, BeginsInRoot file package index r first rest →
      (∃ last, (package.named first.name).getLast? = some last ∧
        bindReference package r.chain r.parts = ⟨first.token, .declaration last⟩ ::
          bindMatches r.parts (last.follow 1 (rest.map Identifier.name))) ∧
      (r.Agrees package ↔ (package.named first.name).length = 1) :=
  ⟨occurrences_parts _ _, bindNode_eq package _ _, fun _ _ _ h => ⟨h.bound, h.agrees_iff⟩⟩

/-- Finds a reference of a source that begins in the root scope, by the number of its parts and that
of the declarations of its first name. -/
theorem exists_beginsInRoot (source : Bytes) (parts count : Nat)
    (h : ((ofFile (parse source).file).toOption.any fun built =>
      ((parse source).file.occurrences built.2 (.ofPackage built.1)).any fun r =>
        r.parts.length == parts && r.parts.head?.any fun first =>
          ((Scope.lookup first.name r.chain).any fun found => found.2.owner.isNone) &&
            (built.1.named first.name).length == count) = true) :
    ∃ package index r first rest, ofFile (parse source).file = .ok (package, index) ∧
      BeginsInRoot (parse source).file package index r first rest ∧ r.parts.length = parts ∧
      (package.named first.name).length = count := by
  cases hbuilt : ofFile (parse source).file with
  | error e => rw [hbuilt] at h; cases h
  | ok built =>
    rw [hbuilt, Except.toOption, Option.any_some] at h
    obtain ⟨r, hr, hparts⟩ := List.any_eq_true.mp h
    obtain ⟨hlength, hfirst⟩ := Bool.and_eq_true_iff.mp hparts
    obtain ⟨first, hhead, hname⟩ := (Option.any_eq_true _ _).mp hfirst
    obtain ⟨hfound, hcount⟩ := Bool.and_eq_true_iff.mp hname
    obtain ⟨⟨symbol, holder⟩, hlookup, howner⟩ := (Option.any_eq_true _ _).mp hfound
    obtain ⟨rest, hrest⟩ := List.head?_eq_some_iff.mp hhead
    exact ⟨built.1, built.2, r, first, rest, rfl,
      ⟨hr, hrest, symbol, holder, hlookup, Option.isNone_iff_eq_none.mp howner⟩,
      beq_iff_eq.mp hlength, beq_iff_eq.mp hcount⟩

/-- A member of a singleton, referred to by its qualified name. -/
theorem bind_agrees_member :
    ∃ package index r first rest,
      ofFile (parse (utf8 "singleton data A \x7b fun f() \x7d\nval x: A.f")).file =
        .ok (package, index) ∧
      BeginsInRoot (parse (utf8 "singleton data A \x7b fun f() \x7d\nval x: A.f")).file package
        index r first rest ∧ r.parts.length = 2 ∧ r.Agrees package := by
  obtain ⟨package, index, r, first, rest, hbuilt, hroot, hparts, hcount⟩ :=
    exists_beginsInRoot (utf8 "singleton data A \x7b fun f() \x7d\nval x: A.f") 2 1
      (by decide +kernel)
  have hagrees := ((bind_agrees_iff _ package index).2.2 r first rest hroot).2
  exact ⟨package, index, r, first, rest, hbuilt, hroot, hparts, hagrees.mpr hcount⟩

/-- Two top-level declarations of one name: the binder takes the last and the resolver the first. -/
theorem bind_disagrees_repeated :
    ¬ ∀ package index,
      ofFile (parse (utf8 "data A\ntrait A\nval x: A")).file = .ok (package, index) →
      ∀ r first rest,
        BeginsInRoot (parse (utf8 "data A\ntrait A\nval x: A")).file package index r first rest →
        r.Agrees package := by
  intro hclaim
  obtain ⟨package, index, r, first, rest, hbuilt, hroot, -, hcount⟩ :=
    exists_beginsInRoot (utf8 "data A\ntrait A\nval x: A") 1 2 (by decide +kernel)
  have hone := hroot.agrees_iff.mp (hclaim package index hbuilt r first rest hroot)
  omega

end Yurin
