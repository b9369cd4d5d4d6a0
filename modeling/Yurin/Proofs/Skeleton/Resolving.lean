import Mathlib.Data.List.Chain
import Yurin.Skeleton.Resolve

/-!
# Chains of members

A dotted reference is resolved to the longest chain of declarations in which the first one is the
first of its name at the top level and each further one is a member of the one before.

* `FirstNamed`: a declaration is the first of its name in a list.
* `Package.Declares`, `Site.IsMember`: what a name stands for at the top level, and below a
  declaration. They are what `Package.lookup` and `Site.member?` find (`lookup_eq_some_iff`,
  `member?_eq_some_iff`).
* `ChainFrom`: the matches are a chain from a segment on, and it cannot be continued. The two
  equations `chainFrom_nil_iff` and `chainFrom_cons_iff` take it apart match by match, so
  there is one such chain only, and `Site.follow` and `Package.resolveFrom` return it.

Result: `resolve_longest`, for both ways of resolving a reference. Further segments only extend the
chain (`resolveBy_extends`).
-/

namespace Yurin.Skeleton

/-! ## Names in a list of declarations -/

/-- **The first declaration of a name** in a list stands at a position. -/
structure FirstNamed (name : Bytes) (declarations : List Declaration) (i : Nat) (d : Declaration) :
    Prop where
  found : declarations[i]? = some d
  named : d.name? = some name
  first : ∀ j < i, ∀ e, declarations[j]? = some e → e.name? ≠ some name

theorem firstNamed_zero_iff {name : Bytes} {first d : Declaration} {rest : List Declaration} :
    FirstNamed name (first :: rest) 0 d ↔ first = d ∧ d.name? = some name := by
  refine ⟨fun h => ⟨by simpa using h.found, h.named⟩, ?_⟩
  rintro ⟨rfl, hnamed⟩
  exact ⟨rfl, hnamed, nofun⟩

theorem firstNamed_succ_iff {name : Bytes} {i : Nat} {first d : Declaration}
    {rest : List Declaration} :
    FirstNamed name (first :: rest) (i + 1) d ↔
      first.name? ≠ some name ∧ FirstNamed name rest i d := by
  constructor
  · intro h
    refine ⟨h.first 0 (Nat.succ_pos i) first rfl, by simpa using h.found, h.named, ?_⟩
    intro j hj e he
    exact h.first (j + 1) (Nat.succ_lt_succ hj) e (by simpa using he)
  · rintro ⟨hfirst, h⟩
    refine ⟨by simpa using h.found, h.named, fun j hj e he => ?_⟩
    cases j with
    | zero =>
      obtain rfl : first = e := by simpa using he
      exact hfirst
    | succ j => exact h.first j (Nat.lt_of_succ_lt_succ hj) e (by simpa using he)

/-- A search finds the first declaration of a name. -/
theorem findNamed_eq_some_iff {name : Bytes} {k j : Nat} {declarations : List Declaration}
    {d : Declaration} :
    findNamed name k declarations = some (j, d) ↔
      ∃ i, j = k + i ∧ FirstNamed name declarations i d := by
  induction declarations generalizing k with
  | nil => exact ⟨nofun, fun ⟨_, _, h⟩ => nomatch h.found⟩
  | cons first rest ih =>
    unfold findNamed
    by_cases hname : first.name? = some name
    · rw [if_pos (beq_iff_eq.mpr hname), Option.some.injEq, Prod.mk.injEq]
      constructor
      · rintro ⟨rfl, rfl⟩
        exact ⟨0, rfl, firstNamed_zero_iff.mpr ⟨rfl, hname⟩⟩
      · rintro ⟨i, rfl, h⟩
        cases i with
        | zero => exact ⟨rfl, (firstNamed_zero_iff.mp h).1⟩
        | succ i => exact absurd hname (firstNamed_succ_iff.mp h).1
    · rw [if_neg (fun h => hname (beq_iff_eq.mp h)), ih]
      constructor
      · rintro ⟨i, rfl, h⟩
        exact ⟨i + 1, by omega, firstNamed_succ_iff.mpr ⟨hname, h⟩⟩
      · rintro ⟨i, rfl, h⟩
        cases i with
        | zero =>
          obtain ⟨rfl, hnamed⟩ := firstNamed_zero_iff.mp h
          exact absurd hnamed hname
        | succ i => exact ⟨i, by omega, (firstNamed_succ_iff.mp h).2⟩

/-! ## What a name stands for -/

/-- A name stands for a top-level declaration: the first one of that name. -/
def Package.Declares (p : Package) (name : Bytes) (site : Site) : Prop :=
  ∃ i, site.path = [i] ∧ FirstNamed name p.declarations i site.declaration

/-- **A name stands for a member of a declaration.** Only data types and traits have members that
can be named. The member is the first one of that name, and a function or property needs a
singleton around it. -/
structure Site.IsMember (container : Site) (name : Bytes) (member : Site) : Prop where
  holds : container.declaration.kind = .data ∨ container.declaration.kind = .trait
  first : ∃ i, member.path = container.path ++ [i] ∧
    FirstNamed name container.declaration.members i member.declaration
  allowed : member.declaration.kind = .function ∨ member.declaration.kind = .property →
    Modifier.singleton ∈ container.declaration.modifiers

theorem Package.lookup_eq_some_iff {p : Package} {name : Bytes} {site : Site} :
    p.lookup name = some site ↔ p.Declares name site := by
  unfold lookup
  rw [Option.map_eq_some_iff]
  constructor
  · rintro ⟨⟨j, d⟩, hfind, rfl⟩
    obtain ⟨i, rfl, h⟩ := findNamed_eq_some_iff.mp hfind
    exact ⟨i, by rw [Nat.zero_add], h⟩
  · rintro ⟨i, hpath, h⟩
    obtain ⟨path, d⟩ := site
    obtain rfl : path = [i] := hpath
    exact ⟨(i, d), findNamed_eq_some_iff.mpr ⟨i, (Nat.zero_add i).symm, h⟩, rfl⟩

theorem Declaration.isContainer_iff {d : Declaration} :
    d.isContainer = true ↔ d.kind = .data ∨ d.kind = .trait := by
  simp [isContainer]

theorem Declaration.needsSingleton_iff {d : Declaration} :
    d.needsSingleton = true ↔ d.kind = .function ∨ d.kind = .property := by
  simp [needsSingleton]

theorem Declaration.hasModifier_iff {d : Declaration} {m : Modifier} :
    d.hasModifier m = true ↔ m ∈ d.modifiers := List.contains_iff_mem

theorem Site.member?_eq_some_iff {container member : Site} {name : Bytes} :
    container.member? name = some member ↔ container.IsMember name member := by
  unfold member?
  constructor
  · intro h
    split at h
    · rename_i hcontainer
      split at h
      · cases h
      · rename_i j d hfind
        split at h
        · cases h
        · rename_i hsingleton
          obtain rfl := Option.some.inj h
          obtain ⟨i, rfl, hfirst⟩ := findNamed_eq_some_iff.mp hfind
          refine ⟨Declaration.isContainer_iff.mp hcontainer, ⟨i, by rw [Nat.zero_add], hfirst⟩, ?_⟩
          intro hkind
          rw [Declaration.needsSingleton_iff.mpr hkind] at hsingleton
          exact Declaration.hasModifier_iff.mp (by simpa using hsingleton)
    · cases h
  · rintro ⟨hcontainer, ⟨i, hpath, hfirst⟩, hallowed⟩
    rw [if_pos (Declaration.isContainer_iff.mpr hcontainer),
      findNamed_eq_some_iff.mpr ⟨i, (Nat.zero_add i).symm, hfirst⟩]
    have hnot : ¬ (member.declaration.needsSingleton &&
        !container.declaration.hasModifier .singleton) = true := by
      rw [Bool.and_eq_true, Bool.not_eq_true', Bool.eq_false_iff]
      rintro ⟨hneeds, hhas⟩
      exact hhas (Declaration.hasModifier_iff.mpr
        (hallowed (Declaration.needsSingleton_iff.mp hneeds)))
    obtain ⟨path, d⟩ := member
    obtain rfl : path = container.path ++ [i] := hpath
    exact if_neg hnot

/-- What has a name is no implementation. -/
theorem Declaration.kind_ne_impl {d : Declaration} {name : Bytes} (h : d.name? = some name) :
    d.kind ≠ .impl := by
  cases d with
  | impl => cases h
  | _ => exact nofun

theorem Package.Declares.named {p : Package} {name : Bytes} {site : Site}
    (h : p.Declares name site) : site.declaration.name? = some name := by
  obtain ⟨i, -, hfirst⟩ := h
  exact hfirst.named

theorem Site.IsMember.named {container member : Site} {name : Bytes}
    (h : container.IsMember name member) : member.declaration.name? = some name := by
  obtain ⟨i, -, hfirst⟩ := h.first
  exact hfirst.named

/-! ## Chains -/

/-- **A chain of members that cannot be continued.** Its matches are those of the segments from
`start` on, one after the other. The first one is what its segment stands for by `stands`, and each
further one is a member of the one before. The segment behind the chain, if there is one, stands
for nothing. -/
structure ChainFrom (stands : Bytes → Site → Prop) (start : Nat) (segments : List Bytes)
    (found : List Match) : Prop where
  segments_eq : found.map Match.segment = List.range' start found.length
  first : ∀ m, found.head? = some m → ∃ name, segments[start]? = some name ∧ stands name m.site
  next : found.IsChain fun m n =>
    ∃ name, segments[n.segment]? = some name ∧ m.site.IsMember name n.site
  stops : ∀ name, segments[start + found.length]? = some name →
    match found.getLast? with
    | none => ∀ site, ¬ stands name site
    | some m => ∀ site, ¬ m.site.IsMember name site

variable {stands : Bytes → Site → Prop} {start : Nat} {segments : List Bytes} {m : Match}
  {found : List Match}

theorem chainFrom_nil_iff :
    ChainFrom stands start segments [] ↔
      ∀ name, segments[start]? = some name → ∀ site, ¬ stands name site :=
  ⟨fun h => h.stops, fun h => ⟨rfl, nofun, .nil, h⟩⟩

/-- The first of consecutive segments. -/
theorem head_segment (h : found.map Match.segment = List.range' start found.length)
    (hm : found.head? = some m) : m.segment = start := by
  obtain ⟨rest, rfl⟩ := List.head?_eq_some_iff.mp hm
  exact (List.cons.inj h).1

/-- A chain begins with what its first segment stands for and goes on with a chain of members. -/
theorem chainFrom_cons_iff :
    ChainFrom stands start segments (m :: found) ↔
      m.segment = start ∧ (∃ name, segments[start]? = some name ∧ stands name m.site) ∧
        ChainFrom m.site.IsMember (start + 1) segments found := by
  have hindex : start + (m :: found).length = start + 1 + found.length := by
    rw [List.length_cons]
    omega
  constructor
  · intro h
    obtain ⟨hsegment, hsegments⟩ := List.cons.inj h.segments_eq
    refine ⟨hsegment, h.first m rfl, hsegments, ?_, h.next.tail, ?_⟩
    · intro n hn
      obtain ⟨name, hname, hmember⟩ := h.next.rel_head? hn
      exact ⟨name, head_segment hsegments hn ▸ hname, hmember⟩
    · intro name hname
      have hstops := h.stops name (hindex ▸ hname)
      cases found with
      | nil => exact hstops
      | cons n rest => rwa [List.getLast?_cons_cons] at hstops
  · rintro ⟨hsegment, hfirst, h⟩
    refine ⟨?_, ?_, ?_, ?_⟩
    · rw [List.map_cons, List.length_cons, List.range'_succ, hsegment, h.segments_eq]
    · intro n hn
      exact Option.some.inj hn ▸ hfirst
    · refine List.isChain_cons.mpr ⟨fun n hn => ?_, h.next⟩
      obtain ⟨name, hname, hmember⟩ := h.first n hn
      exact ⟨name, (head_segment h.segments_eq hn).symm ▸ hname, hmember⟩
    · intro name hname
      have hstops := h.stops name (hindex ▸ hname)
      cases found with
      | nil => exact hstops
      | cons n rest => rwa [List.getLast?_cons_cons]

/-! ## Both ways of resolving -/

/-- The matches of segments, the first of which is looked up in a table; the others are members. -/
def resolveBy (find : Bytes → Option Site) (i : Nat) : List Bytes → List Match
  | [] => []
  | name :: rest =>
    match find name with
    | none => []
    | some site => ⟨i, site⟩ :: site.follow (i + 1) rest

theorem Site.follow_eq (container : Site) (i : Nat) (names : List Bytes) :
    container.follow i names = resolveBy container.member? i names := by
  cases names <;> rfl

theorem Package.resolveFrom_eq (p : Package) (i : Nat) (names : List Bytes) :
    p.resolveFrom i names = resolveBy p.lookup i names := by
  cases names <;> rfl

/-- **Resolving returns the chain**, and there is only one. -/
theorem resolveBy_eq_iff {find : Bytes → Option Site} {names : List Bytes}
    (hfind : ∀ name site, find name = some site ↔ stands name site)
    (hnames : segments.drop start = names) :
    resolveBy find start names = found ↔ ChainFrom stands start segments found := by
  induction names generalizing find stands start found with
  | nil =>
    have hnone : segments[start]? = none :=
      List.getElem?_eq_none (List.drop_eq_nil_iff.mp hnames)
    rw [resolveBy]
    cases found with
    | nil => simp [chainFrom_nil_iff, hnone]
    | cons m found => simp [chainFrom_cons_iff, hnone]
  | cons name rest ih =>
    have hname : segments[start]? = some name := by
      rw [← List.head?_drop, hnames, List.head?_cons]
    have hrest : segments.drop (start + 1) = rest := by
      rw [← List.tail_drop, hnames, List.tail_cons]
    rw [resolveBy]
    cases hstep : find name with
    | none =>
      have hnot (site : Site) : ¬ stands name site := fun h =>
        nomatch hstep.symm.trans ((hfind name site).mpr h)
      cases found with
      | nil => simp [chainFrom_nil_iff, hname, hnot]
      | cons m found => simp [chainFrom_cons_iff, hname, hnot]
    | some site =>
      have hsite (other : Site) : stands name other ↔ site = other := by
        rw [← hfind, hstep, Option.some.injEq]
      cases found with
      | nil => simp [chainFrom_nil_iff, hname, hsite]
      | cons m found =>
        obtain ⟨segment, other⟩ := m
        have hchain : site.follow (start + 1) rest = found ↔
            ChainFrom site.IsMember (start + 1) segments found :=
          site.follow_eq (start + 1) rest ▸ ih (fun _ _ => Site.member?_eq_some_iff) hrest
        rw [chainFrom_cons_iff, List.cons.injEq, Match.mk.injEq, hchain]
        simp only [hname, hsite, Option.some.injEq, exists_eq_left']
        constructor
        · rintro ⟨⟨rfl, rfl⟩, hchain⟩
          exact ⟨rfl, rfl, hchain⟩
        · rintro ⟨rfl, rfl, hchain⟩
          exact ⟨⟨rfl, rfl⟩, hchain⟩

/-- Further segments only extend what is resolved. -/
theorem resolveBy_extends (find : Bytes → Option Site) (i : Nat) (names more : List Bytes) :
    resolveBy find i names <+: resolveBy find i (names ++ more) := by
  induction names generalizing find i with
  | nil => exact List.nil_prefix
  | cons name rest ih =>
    rw [List.cons_append, resolveBy, resolveBy]
    cases find name with
    | none => exact List.nil_prefix
    | some site =>
      have hrest := ih site.member? (i + 1)
      rw [← Site.follow_eq, ← Site.follow_eq] at hrest
      exact (List.prefix_cons_inj _).mpr hrest

/-- A chain of all segments is continued by a member of its last declaration. -/
theorem resolveBy_concat {find : Bytes → Option Site} {i : Nat} {names : List Bytes} {name : Bytes}
    {site : Site} (hall : (resolveBy find i names).length = names.length)
    (hlast : (resolveBy find i names).getLast? = some m)
    (hmember : m.site.member? name = some site) :
    resolveBy find i (names ++ [name]) =
      resolveBy find i names ++ [⟨i + names.length, site⟩] := by
  induction names generalizing find i with
  | nil => cases hlast
  | cons first rest ih =>
    rw [resolveBy] at hall hlast
    rw [List.cons_append, resolveBy, resolveBy]
    cases hfind : find first with
    | none =>
      rw [hfind] at hlast
      cases hlast
    | some top =>
      rw [hfind] at hall hlast
      dsimp only at hall hlast ⊢
      rw [Site.follow_eq, List.length_cons, List.length_cons] at hall
      rw [Site.follow_eq] at hlast
      rw [Site.follow_eq, Site.follow_eq, List.cons_append, List.length_cons]
      cases rest with
      | nil =>
        obtain rfl : (⟨i, top⟩ : Match) = m := by simpa [resolveBy] using hlast
        simp [resolveBy, hmember, Site.follow]
      | cons next rest =>
        have hfound : resolveBy top.member? (i + 1) (next :: rest) ≠ [] := by
          rw [← List.length_pos_iff]
          simp only [List.length_cons] at hall
          omega
        obtain ⟨n, more, hmore⟩ := List.exists_cons_of_ne_nil hfound
        rw [hmore, List.getLast?_cons_cons, ← hmore] at hlast
        rw [ih (by omega) hlast, Nat.add_assoc, Nat.add_comm 1]

namespace Package

variable {p : Package}

theorem resolveLocal_eq_iff_chain :
    p.resolveLocal segments = found ↔ ChainFrom p.Declares 0 segments found := by
  rw [resolveLocal, resolveFrom_eq]
  exact resolveBy_eq_iff (fun _ _ => lookup_eq_some_iff) rfl

/-- The condition under which a reference is resolved behind the package name. -/
theorem qualified_iff :
    (!p.nameParts.isEmpty && p.nameParts.isPrefixOf segments) = true ↔
      p.nameParts ≠ [] ∧ p.nameParts <+: segments := by
  rw [Bool.and_eq_true, Bool.not_eq_true', List.isEmpty_eq_false_iff, List.isPrefixOf_iff_prefix]

theorem resolveQualified_eq_iff (hname : p.nameParts ≠ []) (hbegins : p.nameParts <+: segments) :
    p.resolveQualified segments = found ↔
      ChainFrom p.Declares p.nameParts.length segments found := by
  rw [resolveQualified, if_pos (qualified_iff.mpr ⟨hname, hbegins⟩), resolveFrom_eq]
  exact resolveBy_eq_iff (fun _ _ => lookup_eq_some_iff) rfl

theorem resolveQualified_eq_nil (h : p.nameParts = [] ∨ ¬ p.nameParts <+: segments) :
    p.resolveQualified segments = [] := by
  refine if_neg fun hqualified => ?_
  obtain ⟨hname, hbegins⟩ := qualified_iff.mp hqualified
  exact h.elim hname fun hnot => hnot hbegins

theorem resolveLocal_extends (p : Package) (segments more : List Bytes) :
    p.resolveLocal segments <+: p.resolveLocal (segments ++ more) := by
  rw [resolveLocal, resolveLocal, resolveFrom_eq, resolveFrom_eq]
  exact resolveBy_extends p.lookup 0 segments more

theorem resolveQualified_extends (p : Package) (segments more : List Bytes) :
    p.resolveQualified segments <+: p.resolveQualified (segments ++ more) := by
  by_cases h : p.nameParts ≠ [] ∧ p.nameParts <+: segments
  · obtain ⟨rest, rfl⟩ := h.2
    have hmore : p.nameParts <+: p.nameParts ++ rest ++ more :=
      (List.prefix_append _ _).trans (List.prefix_append _ _)
    rw [resolveQualified, resolveQualified, if_pos (qualified_iff.mpr h),
      if_pos (qualified_iff.mpr ⟨h.1, hmore⟩), List.append_assoc, List.drop_left, List.drop_left,
      resolveFrom_eq, resolveFrom_eq]
    exact resolveBy_extends p.lookup _ rest more
  · rw [resolveQualified_eq_nil (by tauto)]
    exact List.nil_prefix

end Package

/-! ## What is matched -/

/-- The kinds of declarations in a chain of matches: none is an implementation, all but the last are
data types or traits, and a function or property comes first or behind a singleton. -/
structure WellKinded (found : List Match) : Prop where
  named : ∀ m ∈ found, m.site.declaration.kind ≠ .impl
  links : found.IsChain fun m n =>
    (m.site.declaration.kind = .data ∨ m.site.declaration.kind = .trait) ∧
      (n.site.declaration.kind = .function ∨ n.site.declaration.kind = .property →
        Modifier.singleton ∈ m.site.declaration.modifiers)

namespace ChainFrom

/-- Every match has the name that its segment says. -/
theorem name_eq (hstands : ∀ name site, stands name site → site.declaration.name? = some name)
    (h : ChainFrom stands start segments found) :
    ∀ m ∈ found, ∃ name, segments[m.segment]? = some name ∧
      m.site.declaration.name? = some name := by
  induction found generalizing stands start with
  | nil => nofun
  | cons m found ih =>
    obtain ⟨hsegment, ⟨name, hname, hsite⟩, hrest⟩ := chainFrom_cons_iff.mp h
    refine List.forall_mem_cons.mpr ⟨⟨name, hsegment ▸ hname, hstands name _ hsite⟩, ?_⟩
    exact ih (fun _ _ hmember => hmember.named) hrest

theorem wellKinded (hstands : ∀ name site, stands name site → site.declaration.name? = some name)
    (h : ChainFrom stands start segments found) : WellKinded found where
  named m hm := by
    obtain ⟨name, -, hname⟩ := h.name_eq hstands m hm
    exact Declaration.kind_ne_impl hname
  links := h.next.imp fun _ _ ⟨_, _, hmember⟩ => ⟨hmember.holds, hmember.allowed⟩

end ChainFrom

/-- **A reference is resolved to the longest chain of members.** From the top level, the matches are
the one chain that begins with the first segment. Behind the package name they are the one chain
that begins after it, when the package has a name and the reference begins with it; else there are
none. No implementation is matched, every match but the last is a data type or a trait, and a
function or property is matched first or below a singleton. Further segments only extend the
chain. -/
theorem resolve_longest (p : Package) (segments : List Bytes) :
    (∀ found, p.resolveLocal segments = found ↔ ChainFrom p.Declares 0 segments found) ∧
    (p.nameParts ≠ [] → p.nameParts <+: segments → ∀ found, p.resolveQualified segments = found ↔
      ChainFrom p.Declares p.nameParts.length segments found) ∧
    (p.nameParts = [] ∨ ¬ p.nameParts <+: segments → p.resolveQualified segments = []) ∧
    WellKinded (p.resolveLocal segments) ∧ WellKinded (p.resolveQualified segments) ∧
    ∀ more, p.resolveLocal segments <+: p.resolveLocal (segments ++ more) ∧
      p.resolveQualified segments <+: p.resolveQualified (segments ++ more) := by
  refine ⟨fun _ => Package.resolveLocal_eq_iff_chain, fun hname hbegins _ =>
    Package.resolveQualified_eq_iff hname hbegins, Package.resolveQualified_eq_nil, ?_, ?_,
    fun more => ⟨p.resolveLocal_extends segments more, p.resolveQualified_extends segments more⟩⟩
  · exact (Package.resolveLocal_eq_iff_chain.mp rfl).wellKinded fun _ _ h => h.named
  · by_cases h : p.nameParts ≠ [] ∧ p.nameParts <+: segments
    · have hchain := (Package.resolveQualified_eq_iff h.1 h.2).mp rfl
      exact hchain.wellKinded fun _ _ hsite => hsite.named
    · rw [Package.resolveQualified_eq_nil (by tauto)]
      exact ⟨nofun, .nil⟩

/-- A reference behind the package name, to a function of a singleton. The chain ends at a segment
that is no member of the function. -/
theorem resolve_longest_singleton :
    let put : Declaration := .function [] none (utf8 "put") [] [] none []
    let p : Package :=
      ⟨[utf8 "a", utf8 "b"], [.data [.singleton] .none (utf8 "Box") [] [] [] [put]]⟩
    let segments := [utf8 "a", utf8 "b", utf8 "Box", utf8 "put", utf8 "x"]
    p.nameParts ≠ [] ∧ p.nameParts <+: segments ∧ (p.resolveQualified segments).length = 2 ∧
      ChainFrom p.Declares 2 segments (p.resolveQualified segments) := by
  intro put p segments
  have hname : p.nameParts ≠ [] := List.cons_ne_nil _ _
  have hbegins : p.nameParts <+: segments := ⟨[utf8 "Box", utf8 "put", utf8 "x"], rfl⟩
  have hresolved := (resolve_longest p segments).2.1 hname hbegins
  exact ⟨hname, hbegins, by decide +kernel, (hresolved _).mp rfl⟩

end Yurin.Skeleton
