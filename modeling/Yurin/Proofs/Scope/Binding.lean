import Yurin.Proofs.Engine.Calls
import Yurin.Proofs.Parser.Names
import Yurin.Proofs.Scope.Agreement
import Yurin.Proofs.Scope.Nesting
import Yurin.Proofs.Skeleton.Indexing
import Yurin.Proofs.Skeleton.Resolving
import Yurin.Proofs.Tree.References

/-!
# Bindings are sound and unique

The bindings of a source to its own skeleton and scope tree, also where the parser recovered from
errors.

* `Symbol.name?`: what is found in a scope has the name that was looked for (`Chained`), and so has
  every member of a chain (`ChainFrom.bound`).
* `BoundFrom`: the bindings of one reference are those of parts that follow each other, and only the
  last of them may be a parameter. `bindReference_sound` says from which part on: from the first one
  when its name is visible, and else from the one behind the package name. What is not visible is
  not at the top level either, since every chain of scopes ends in the root.
* `Node.enclosed`: a reference sees the scopes of the innermost declaration around it that has a
  scope (`occurrences_eq`).
* `SourceFile.references_sublist`: the parts of references are names of the tree in their order, so
  no token is bound twice (`bind_tokens_sublist`).

Result: `bind_sound`.
-/

namespace Yurin

open Skeleton

/-- The name of what a symbol stands for; an implementation has none. -/
def Skeleton.Symbol.name? : Symbol → Option Bytes
  | .declaration site => site.declaration.name?
  | .typeParameter _ _ name | .detached name => some name
  | .parameter _ _ p => some p.name

namespace Scope

/-! ## Chains of scopes -/

/-- **A chain of scopes of a package** ends in the root, and what is found in a scope of it has the
name under which it is found. -/
structure Chained (p : Package) (chain : List Scope) : Prop where
  root : ofPackage p ∈ chain
  named : ∀ s ∈ chain, ∀ name symbol, s.local? name = some symbol → symbol.name? = some name

theorem opened_named {site : Site} {name : Bytes} {symbol : Symbol}
    (h : (opened site).local? name = some symbol) : symbol.name? = some name := by
  obtain ⟨rank, position, hcandidate, -⟩ := ((opened_names site name).last symbol).mp h
  cases hcandidate with
  | typeParameter => rfl
  | member _ hname => exact hname
  | parameter _ hname => exact congrArg some hname

theorem ofPackage_named {p : Package} {name : Bytes} {symbol : Symbol}
    (h : (ofPackage p).local? name = some symbol) : symbol.name? = some name := by
  obtain ⟨rank, position, hcandidate, -⟩ := ((ofPackage_names p name).last symbol).mp h
  cases hcandidate with
  | top _ hname => exact hname

theorem chained_root (p : Package) : Chained p [ofPackage p] :=
  ⟨List.mem_cons_self, List.forall_mem_singleton.mpr fun _ _ h => ofPackage_named h⟩

theorem chained_of_chainOf? {p : Package} {path : Path} {chain : List Scope}
    (h : (ofPackage p).chainOf? path = some chain) : Chained p chain := by
  refine ⟨List.mem_of_getLast? (chainOf?_nested h).1, fun s hs name symbol hfound => ?_⟩
  rw [chainOf?_ofPackage, Option.bind_eq_some_iff] at h
  obtain ⟨site, -, h⟩ := h
  obtain ⟨-, hchain⟩ := Option.ite_none_right_eq_some.mp h
  rw [← Option.some.inj hchain, List.mem_append, List.mem_map, List.mem_singleton] at hs
  rcases hs with ⟨above, -, rfl⟩ | rfl
  · exact opened_named hfound
  · exact ofPackage_named hfound

/-- What no scope of a chain has is not declared at the top level. -/
theorem Chained.lookup_eq_none {p : Package} {chain : List Scope} {name : Bytes}
    (hchain : Chained p chain) (h : lookup name chain = none) : p.lookup name = none := by
  have hroot := lookup_eq_none_iff.mp h _ hchain.root
  rw [local?_ofPackage, Option.map_eq_none_iff, List.getLast?_eq_none_iff] at hroot
  rw [Package.lookup_eq_head?, hroot, List.head?_nil]

end Scope

/-! ## One reference -/

/-- **Bindings of the parts of a reference from one on**: the parts follow each other, each is bound
to a symbol of its name, and what is bound to a parameter is bound last. -/
structure BoundFrom (start : Nat) (parts : List Identifier) (bindings : List Binding) : Prop where
  contiguous : bindings.map Binding.token =
    ((parts.drop start).take bindings.length).map Identifier.token
  named : ∀ b ∈ bindings, b.symbol.name? = some b.token.text
  continued : ∀ b ∈ bindings.dropLast, ∃ site, b.symbol = .declaration site

namespace BoundFrom

variable {start : Nat} {parts : List Identifier} {bindings : List Binding}

theorem nil : BoundFrom start parts [] :=
  ⟨by simp, List.forall_mem_nil _, List.forall_mem_nil _⟩

theorem cons {part : Identifier} {symbol : Symbol} (hpart : parts[start]? = some part)
    (hname : symbol.name? = some part.name)
    (hsymbol : bindings ≠ [] → ∃ site, symbol = .declaration site)
    (h : BoundFrom (start + 1) parts bindings) :
    BoundFrom start parts (⟨part.token, symbol⟩ :: bindings) := by
  obtain ⟨hlt, rfl⟩ := List.getElem?_eq_some_iff.mp hpart
  refine ⟨?_, List.forall_mem_cons.mpr ⟨hname, h.named⟩, ?_⟩
  · rw [List.map_cons, List.length_cons, List.drop_eq_getElem_cons hlt, List.take_succ_cons,
      List.map_cons, h.contiguous]
  · cases bindings with
    | nil => exact List.forall_mem_nil _
    | cons b rest =>
      rw [List.dropLast_cons_cons]
      exact List.forall_mem_cons.mpr ⟨hsymbol (List.cons_ne_nil b rest), h.continued⟩

theorem tokens_sublist (h : BoundFrom start parts bindings) :
    (bindings.map Binding.token).Sublist (parts.map Identifier.token) := by
  rw [h.contiguous]
  exact ((List.take_sublist _ _).trans (List.drop_sublist _ _)).map _

end BoundFrom

/-- The matches of a chain of members are bound one after the other. -/
theorem Skeleton.ChainFrom.bound {stands : Bytes → Site → Prop} {start : Nat}
    {parts : List Identifier} {found : List Match}
    (hstands : ∀ name site, stands name site → site.declaration.name? = some name)
    (h : ChainFrom stands start (parts.map Identifier.name) found) :
    BoundFrom start parts (bindMatches parts found) := by
  induction found generalizing stands start with
  | nil => exact .nil
  | cons m found ih =>
    obtain ⟨hsegment, ⟨name, hname, hsite⟩, hrest⟩ := chainFrom_cons_iff.mp h
    rw [List.getElem?_map, Option.map_eq_some_iff] at hname
    obtain ⟨part, hpart, rfl⟩ := hname
    have hcons : bindMatches parts (m :: found) =
        ⟨part.token, .declaration m.site⟩ :: bindMatches parts found :=
      List.filterMap_cons_some (by rw [hsegment, hpart, Option.map_some])
    rw [hcons]
    exact .cons hpart (hstands _ _ hsite) (fun _ => ⟨m.site, rfl⟩)
      (ih (fun _ _ hmember => hmember.named) hrest)

/-- **A reference is bound soundly** in a chain of scopes. -/
structure SoundlyBound (package : Package) (chain : List Scope) (parts : List Identifier)
    (bindings : List Binding) : Prop where
  empty : parts = [] → bindings = []
  /-- When a scope has the name of the first part, the bindings begin there, with what the nearest
  such scope has. -/
  visible : ∀ first ∈ parts.head?, ∀ symbol holder,
    Scope.lookup first.name chain = some (symbol, holder) →
      BoundFrom 0 parts bindings ∧ bindings.head?.map Binding.symbol = some symbol
  /-- When no scope has it, the bindings begin behind the name of the package, which is in front. -/
  hidden : ∀ first ∈ parts.head?, Scope.lookup first.name chain = none →
    BoundFrom package.nameParts.length parts bindings ∧
      (bindings ≠ [] → package.nameParts ≠ [] ∧
        package.nameParts <+: parts.map Identifier.name)
  /-- The top level has nothing to add then. -/
  unqualified : ∀ first ∈ parts.head?, Scope.lookup first.name chain = none →
    package.resolveLocal (parts.map Identifier.name) = [] ∧
      bindings = bindMatches parts (package.resolveQualified (parts.map Identifier.name))

section References

variable {package : Package} {chain : List Scope}

/-- The members that segments stand for, behind a first one. -/
theorem Skeleton.Site.follow_chain (site : Site) (first : Bytes) (rest : List Bytes) :
    ChainFrom site.IsMember 1 (first :: rest) (site.follow 1 rest) := by
  rw [Site.follow_eq]
  exact (resolveBy_eq_iff (fun _ _ => Site.member?_eq_some_iff) rfl).mp rfl

/-- A reference whose first name is visible is bound from there on. -/
theorem bindReference_visible {first : Identifier} {rest : List Identifier} {symbol : Symbol}
    {holder : Scope} (hchain : Scope.Chained package chain)
    (h : Scope.lookup first.name chain = some (symbol, holder)) :
    BoundFrom 0 (first :: rest) (bindReference package chain (first :: rest)) ∧
      (bindReference package chain (first :: rest)).head?.map Binding.symbol = some symbol := by
  obtain ⟨hholder, hlocal⟩ := Scope.lookup_eq_some h
  have hname := hchain.named holder hholder _ _ hlocal
  rw [bindReference, h]
  cases symbol with
  | declaration site =>
    have hfollow : ChainFrom site.IsMember 1 ((first :: rest).map Identifier.name)
        (site.follow 1 (rest.map Identifier.name)) :=
      site.follow_chain first.name _
    have hmembers := hfollow.bound fun _ _ hmember => hmember.named
    exact ⟨.cons rfl hname (fun _ => ⟨site, rfl⟩) hmembers, rfl⟩
  | typeParameter | parameter | detached =>
    exact ⟨.cons rfl hname (fun h => absurd rfl h) .nil, rfl⟩

/-- A reference whose first name is not visible is bound behind the package name, if at all. -/
theorem bindReference_hidden {first : Identifier} {rest : List Identifier}
    (hchain : Scope.Chained package chain) (h : Scope.lookup first.name chain = none) :
    package.resolveLocal ((first :: rest).map Identifier.name) = [] ∧
      bindReference package chain (first :: rest) =
        bindMatches (first :: rest)
          (package.resolveQualified ((first :: rest).map Identifier.name)) := by
  have htop : package.resolveLocal ((first :: rest).map Identifier.name) = [] := by
    rw [Package.resolveLocal, List.map_cons, Package.resolveFrom, hchain.lookup_eq_none h]
  refine ⟨htop, ?_⟩
  rw [bindReference, h]
  dsimp only
  rw [htop]
  split
  · rename_i hnone
    rw [hnone]
  · rfl

theorem bindMatches_qualified (package : Package) (parts : List Identifier) :
    BoundFrom package.nameParts.length parts
        (bindMatches parts (package.resolveQualified (parts.map Identifier.name))) ∧
      (bindMatches parts (package.resolveQualified (parts.map Identifier.name)) ≠ [] →
        package.nameParts ≠ [] ∧ package.nameParts <+: parts.map Identifier.name) := by
  by_cases h : package.nameParts ≠ [] ∧ package.nameParts <+: parts.map Identifier.name
  · have hfound := (Package.resolveQualified_eq_iff h.1 h.2).mp rfl
    exact ⟨hfound.bound fun _ _ hsite => hsite.named, fun _ => h⟩
  · rw [Package.resolveQualified_eq_nil (by tauto)]
    exact ⟨.nil, fun hne => absurd rfl hne⟩

/-- **References are bound soundly** in chains of scopes that end in the root. -/
theorem bindReference_sound (hchain : Scope.Chained package chain) (parts : List Identifier) :
    SoundlyBound package chain parts (bindReference package chain parts) := by
  cases parts with
  | nil =>
    refine ⟨fun _ => rfl, ?_, ?_, ?_⟩ <;>
    · intro first hfirst
      cases hfirst
  | cons first rest =>
    refine ⟨(absurd · (List.cons_ne_nil first rest)), ?_, ?_, ?_⟩
    · rintro _ ⟨rfl⟩ symbol holder h
      exact bindReference_visible hchain h
    · rintro _ ⟨rfl⟩ h
      rw [(bindReference_hidden hchain h).2]
      exact bindMatches_qualified package (first :: rest)
    · rintro _ ⟨rfl⟩ h
      exact bindReference_hidden hchain h

theorem SoundlyBound.tokens_sublist {parts : List Identifier} {bindings : List Binding}
    (h : SoundlyBound package chain parts bindings) :
    (bindings.map Binding.token).Sublist (parts.map Identifier.token) ∧
      ∀ b ∈ bindings, b.symbol.name? = some b.token.text := by
  cases parts with
  | nil =>
    rw [h.empty rfl]
    exact ⟨.slnil, List.forall_mem_nil _⟩
  | cons first rest =>
    cases hlookup : Scope.lookup first.name chain with
    | some found =>
      have hbound := (h.visible first rfl found.1 found.2 hlookup).1
      exact ⟨hbound.tokens_sublist, hbound.named⟩
    | none =>
      have hbound := (h.hidden first rfl hlookup).1
      exact ⟨hbound.tokens_sublist, hbound.named⟩

end References

/-! ## The scopes around a reference -/

/-- The scopes from that of the declaration with a keyword on, if it has one. -/
def Skeleton.Index.scopes? (index : Index) (root : Scope) (keyword : Token) :
    Option (List Scope) :=
  (index.declaration? keyword).bind fun site => root.chainOf? site.path

/-- **A declaration of a file has a scope** if it is in the index and opens one. -/
theorem ofFile_scopes? {file : SourceFile} {package : Package} {index : Index}
    (h : ofFile file = .ok (package, index)) (keyword : Token) :
    (index.scopes? (.ofPackage package) keyword).isSome ↔
      ∃ site ∈ package.openers, index.declaration? keyword = some site := by
  rw [Index.scopes?]
  cases hsite : index.declaration? keyword with
  | none => simp
  | some site =>
    rw [Option.bind_some, Scope.isSome_chainOf?]
    constructor
    · rintro ⟨opener, hopener, hpath⟩
      -- What is found in the index stands at its place, so it is the one that opens the scope.
      have hplace := Package.mem_sites.mp (List.mem_filter.mp hopener).1
      rw [hpath, ofFile_declaration? h hsite] at hplace
      exact ⟨opener, hopener, hplace⟩
    · rintro ⟨opener, hopener, heq⟩
      obtain rfl := Option.some.inj heq
      exact ⟨site, hopener, rfl⟩

/-- A reference in a file, and the keywords of the declarations around it from the innermost
outwards. -/
structure Enclosed where
  around : List Token
  parts : List Identifier

/-- The scopes that a reference sees: those from the innermost declaration around it that has a
scope on, or the root only. -/
def Enclosed.scopes (r : Enclosed) (index : Index) (root : Scope) : List Scope :=
  (r.around.findSome? (index.scopes? root)).getD [root]

mutual

/-- The references below a node, inside some declarations. -/
def Node.enclosed (around : List Token) : Node → List Enclosed
  | .mk (.reference parts) _ => [⟨around, parts⟩]
  | .mk (.declaration _ keyword) children => enclosedAll (keyword :: around) children
  | .mk _ children => enclosedAll around children

/-- The references below several nodes. -/
def enclosedAll (around : List Token) : List Node → List Enclosed
  | [] => []
  | node :: rest => node.enclosed around ++ enclosedAll around rest

end

theorem findSome?_cons_getD {α β : Type} (f : α → Option β) (a : α) (as : List α) (b : β) :
    ((a :: as).findSome? f).getD b = (f a).getD ((as.findSome? f).getD b) := by
  rw [List.findSome?_cons]
  cases f a <;> rfl

section Occurrences

variable {index : Index} {root : Scope}

mutual

/-- **The scopes that are current at a reference** are those that it sees. -/
theorem occurrences_eq : ∀ (around : List Token) (node : Node),
    occurrences (index.scopes? root) ((around.findSome? (index.scopes? root)).getD [root]) node =
      (node.enclosed around).map fun r => ⟨r.scopes index root, r.parts⟩
  | around, .mk label children => by
    cases label with
    | reference parts => rfl
    | declaration kind keyword =>
      rw [occurrences, ← findSome?_cons_getD]
      exact occurrencesAll_eq (keyword :: around) children
    | _ => exact occurrencesAll_eq around children

theorem occurrencesAll_eq : ∀ (around : List Token) (nodes : List Node),
    occurrencesAll (index.scopes? root) ((around.findSome? (index.scopes? root)).getD [root])
        nodes =
      (enclosedAll around nodes).map fun r => ⟨r.scopes index root, r.parts⟩
  | _, [] => rfl
  | around, node :: rest => by
    rw [occurrencesAll, enclosedAll, List.map_append, occurrences_eq, occurrencesAll_eq]

end

/-- In a whole file nothing is around at first. -/
theorem occurrences_enclosed (index : Index) (root : Scope) (node : Node) :
    occurrences (index.scopes? root) [root] node =
      (node.enclosed []).map fun r => ⟨r.scopes index root, r.parts⟩ :=
  occurrences_eq [] node

/-- The bindings of a file are those of its references, each in the scopes that it sees. -/
theorem bind_eq (file : SourceFile) (package : Package) (index : Index) (root : Scope) :
    bind file package index root =
      (file.node.enclosed []).flatMap fun r =>
        bindReference package (r.scopes index root) r.parts := by
  calc bind file package index root
      = (occurrences (index.scopes? root) [root] file.node).flatMap
          fun r => bindReference package r.chain r.parts := bindNode_eq package [root] file.node
    _ = _ := by rw [occurrences_enclosed, List.flatMap_map]

end Occurrences

theorem Enclosed.chained (r : Enclosed) (index : Index) (package : Package) :
    Scope.Chained package (r.scopes index (.ofPackage package)) := by
  rw [Enclosed.scopes]
  cases h : r.around.findSome? (index.scopes? (.ofPackage package)) with
  | none => exact Scope.chained_root package
  | some chain =>
    obtain ⟨keyword, -, hscopes⟩ := List.exists_of_findSome?_eq_some h
    obtain ⟨site, -, hchain⟩ := Option.bind_eq_some_iff.mp hscopes
    exact Scope.chained_of_chainOf? hchain

/-! ## Order -/

/-- **The parts of references** are names of the tree, in its order. -/
theorem SourceFile.references_sublist (file : SourceFile) :
    (file.node.references.flatten.map Identifier.token).Sublist (namesOf (leaves [file.node])) := by
  rw [Node.references_eq file.named rfl, namesOf_leaves .file, List.map_map]
  exact List.filter_sublist.map _

/-- The references with the declarations around them are all references. -/
theorem Node.enclosed_parts (node : Node) :
    (node.enclosed []).map Enclosed.parts = node.references := by
  have hparts := congrArg (List.map Occurrence.parts)
    (occurrences_enclosed .empty (.ofPackage .empty) node)
  rw [occurrences_parts, List.map_map] at hparts
  exact hparts.symm

/-- Lists whose tokens are among those of the references, one for each reference. -/
theorem flatMap_tokens_sublist {bound : Enclosed → List Binding} (refs : List Enclosed)
    (h : ∀ r ∈ refs, ((bound r).map Binding.token).Sublist (r.parts.map Identifier.token)) :
    ((refs.flatMap bound).map Binding.token).Sublist
      ((refs.map Enclosed.parts).flatten.map Identifier.token) := by
  induction refs with
  | nil => exact .slnil
  | cons r rest ih =>
    rw [List.flatMap_cons, List.map_append, List.map_cons, List.flatten_cons, List.map_append]
    exact (h r List.mem_cons_self).append (ih fun r hr => h r (List.mem_cons_of_mem _ hr))

/-- **What is bound are names of the tree**, in its order. -/
theorem bind_tokens_sublist (file : SourceFile) (package : Package) (index : Index) :
    ((bind file package index (.ofPackage package)).map Binding.token).Sublist file.names := by
  rw [bind_eq, SourceFile.names_eq]
  refine (flatMap_tokens_sublist _ fun r _ => ?_).trans ?_
  · exact (bindReference_sound (r.chained index package) r.parts).tokens_sublist.1
  · rw [Node.enclosed_parts]
    exact file.references_sublist

/-! ## The bindings of a source -/

/-- **The bindings of a source are sound and unique.** -/
structure SoundBindings (source : Bytes) (package : Package) (index : Index)
    (bindings : List Binding) : Prop where
  /-- In the order of the source, no token twice. -/
  ordered : bindings.Pairwise fun a b => a.token.start < b.token.start
  names : ∀ b ∈ bindings, b.token ∈ lex source ∧ b.token.kind = .identifier
  parts : ∀ b ∈ bindings, ∃ parts ∈ (parse source).file.node.references, ∃ i ∈ parts,
    i.token = b.token
  named : ∀ b ∈ bindings, b.symbol.name? = some b.token.text
  /-- The declarations around a reference that have a scope are those of the skeleton that open
  one. -/
  declared : ∀ keyword, (index.scopes? (.ofPackage package) keyword).isSome ↔
    ∃ site ∈ package.openers, index.declaration? keyword = some site
  /-- The bindings are those of the references, one after the other. -/
  referenced : bindings = ((parse source).file.node.enclosed []).flatMap fun r =>
    bindReference package (r.scopes index (.ofPackage package)) r.parts
  /-- Each reference is bound soundly in the scopes that it sees. -/
  sound : ∀ r ∈ (parse source).file.node.enclosed [],
    SoundlyBound package (r.scopes index (.ofPackage package)) r.parts
      (bindReference package (r.scopes index (.ofPackage package)) r.parts)

/-- **Bindings are sound and unique**, for every source, also a malformed one: it has a skeleton,
and what is bound to it are parts of its references, each at most once and to a symbol of its name.
-/
theorem bind_sound (source : Bytes) :
    ∃ package index, ofFile (parse source).file = .ok (package, index) ∧
      SoundBindings source package index
        (bind (parse source).file package index (.ofPackage package)) := by
  obtain ⟨⟨package, index⟩, hbuilt⟩ := ofFile_parse source
  have hordered := parse_names_ordered source
  have htokens := bind_tokens_sublist (parse source).file package index
  have hbindings := hordered.sublist htokens
  rw [List.pairwise_map] at hbindings
  have hsound (r : Enclosed) :=
    bindReference_sound (r.chained index package) r.parts
  refine ⟨package, index, hbuilt, ?_⟩
  exact {
    ordered := hbindings
    names := fun b hb => mem_parse_names (htokens.subset (List.mem_map_of_mem hb))
    parts := fun b hb => mem_bindNode hb
    named := fun b hb => by
      rw [bind_eq, List.mem_flatMap] at hb
      obtain ⟨r, -, hb⟩ := hb
      exact (hsound r).tokens_sublist.2 b hb
    declared := ofFile_scopes? hbuilt
    referenced := bind_eq (parse source).file package index (.ofPackage package)
    sound := fun r _ => hsound r }

end Yurin
