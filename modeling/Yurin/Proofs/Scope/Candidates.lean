import Yurin.Proofs.Scope.Builder

/-!
# The names of a scope

What a name stands for in a scope, said without the order of the entries.

* `Site.Candidate`, `Package.Candidate`: what a name can stand for in the scope of a declaration and
  at the top level, each with its rank. A scope keeps the last candidate (`LastOf`): members hide
  type parameters, and value parameters hide both.
* `Scope.Run`: entries of one kind, of which the last counts. Runs behind each other give the last
  candidate (`lastOf_append`), one rank after the other.

Results: `opened_names` for the scope that a declaration opens, and `ofPackage_names` for the root.
-/

namespace Yurin

open Skeleton

/-! ## Candidates -/

/-- **What a name can stand for in the scope of a declaration**: type parameters first, then
members, then value parameters, each kind in the order in which it is written. -/
inductive Skeleton.Site.Candidate (site : Site) (name : Bytes) :
    (rank position : Nat) → Symbol → Prop
  | typeParameter {i : Nat} (h : site.declaration.typeParameters[i]? = some name) :
    Candidate site name 0 i (.typeParameter site.path i name)
  | member {i : Nat} {m : Skeleton.Declaration} (h : site.declaration.members[i]? = some m)
      (hname : m.name? = some name) :
    Candidate site name 1 i (.declaration ⟨site.path ++ [i], m⟩)
  | parameter {i : Nat} {q : Skeleton.Parameter} (h : site.declaration.parameters[i]? = some q)
      (hname : q.name = name) :
    Candidate site name 2 i (.parameter site.path i q)

/-- What a name can stand for at the top level. -/
inductive Skeleton.Package.Candidate (p : Package) (name : Bytes) :
    (rank position : Nat) → Symbol → Prop
  | top {i : Nat} {d : Skeleton.Declaration} (h : p.declarations[i]? = some d)
      (hname : d.name? = some name) :
    Candidate p name 1 i (.declaration ⟨[i], d⟩)

/-- **The last of some candidates**, by rank and then by position, or nothing when there is none. -/
structure LastOf (candidate : (rank position : Nat) → Symbol → Prop) (found : Option Symbol) :
    Prop where
  last : ∀ symbol, found = some symbol ↔ ∃ rank position, candidate rank position symbol ∧
    ∀ rank' position' symbol', candidate rank' position' symbol' →
      rank' < rank ∨ rank' = rank ∧ position' ≤ position
  missing : found = none ↔ ∀ rank position symbol, ¬ candidate rank position symbol

namespace Scope

/-! ## Entries in order -/

/-- The entries of a name in a list are those at some positions, and the last of them counts. -/
structure Run (entries : List (Bytes × Symbol)) (name : Bytes) (at_ : Nat → Symbol → Prop) :
    Prop where
  found : ∀ symbol, entries.reverse.lookup name = some symbol ↔
    ∃ i, at_ i symbol ∧ ∀ j other, at_ j other → j ≤ i
  missing : entries.reverse.lookup name = none ↔ ∀ i symbol, ¬ at_ i symbol

namespace Run

variable {entries : List (Bytes × Symbol)} {name : Bytes} {at_ : Nat → Symbol → Prop}

theorem congr {at' : Nat → Symbol → Prop} (h : Run entries name at_)
    (heq : ∀ i symbol, at_ i symbol ↔ at' i symbol) : Run entries name at' := by
  have hsame : at_ = at' := funext fun i => funext fun symbol => propext (heq i symbol)
  exact hsame ▸ h

theorem nil (h : ∀ i symbol, ¬ at_ i symbol) : Run [] name at_ :=
  ⟨fun _ => ⟨nofun, fun ⟨i, hi, _⟩ => absurd hi (h i _)⟩, fun _ => h, fun _ => rfl⟩

/-- One thing more in front, with or without an entry. -/
theorem cons {entry : Option (Bytes × Symbol)} {rest : List (Bytes × Symbol)}
    (hfirst : ∀ symbol, at_ 0 symbol ↔ entry = some (name, symbol))
    (hrest : Run rest name fun i symbol => at_ (i + 1) symbol) :
    Run (entry.toList ++ rest) name at_ := by
  have hentry (symbol : Symbol) :
      entry.toList.reverse.lookup name = some symbol ↔ at_ 0 symbol := by
    rw [hfirst]
    cases entry with
    | none => simp
    | some e =>
      obtain ⟨n, t⟩ := e
      by_cases h : name = n
      · simp [h]
      · simp [List.lookup_cons, beq_eq_false_iff_ne.mpr h, Ne.symm h]
  refine ⟨fun symbol => ?_, ?_⟩
  · rw [List.reverse_append, List.lookup_append, Option.or_eq_some_iff, hrest.found,
      hrest.missing, hentry]
    constructor
    · rintro (⟨i, hi, hlast⟩ | ⟨hnone, hi⟩)
      · refine ⟨i + 1, hi, fun j other hj => ?_⟩
        cases j with
        | zero => exact Nat.zero_le _
        | succ j => exact Nat.succ_le_succ (hlast j other hj)
      · refine ⟨0, hi, fun j other hj => ?_⟩
        cases j with
        | zero => exact Nat.le_refl 0
        | succ j => exact absurd hj (hnone j other)
    · rintro ⟨i, hi, hlast⟩
      cases i with
      | zero =>
        refine .inr ⟨fun j other hj => ?_, hi⟩
        exact absurd (hlast (j + 1) other hj) (Nat.not_succ_le_zero j)
      | succ i => exact .inl ⟨i, hi, fun j other hj => Nat.le_of_succ_le_succ (hlast _ other hj)⟩
  · rw [List.reverse_append, List.lookup_append, Option.or_eq_none_iff, hrest.missing]
    constructor
    · rintro ⟨hnone, hfirst⟩ i symbol hi
      cases i with
      | zero =>
        rw [(hentry symbol).mpr hi] at hfirst
        cases hfirst
      | succ i => exact hnone i symbol hi
    · intro h
      refine ⟨fun i symbol => h (i + 1) symbol, ?_⟩
      rw [Option.eq_none_iff_forall_ne_some]
      exact fun symbol heq => h 0 symbol ((hentry symbol).mp heq)

end Run

theorem declarationEntries_run (path : Path) (name : Bytes) (i : Nat)
    (ds : List Skeleton.Declaration) :
    Run (declarationEntries path i ds) name fun j symbol =>
      ∃ d, ds[j]? = some d ∧ d.name? = some name ∧
        symbol = .declaration ⟨path ++ [i + j], d⟩ := by
  induction ds generalizing i with
  | nil => exact .nil fun _ _ ⟨_, h, _⟩ => nomatch h
  | cons d rest ih =>
    have hentry : declarationEntries path i (d :: rest) =
        (d.name?.map fun name => (name, Symbol.declaration ⟨path ++ [i], d⟩)).toList ++
          declarationEntries path (i + 1) rest := by
      rw [declarationEntries, Option.toList_map]
    rw [hentry]
    refine .cons (fun symbol => ?_) ?_
    · simp only [List.getElem?_cons_zero, Option.some.injEq, exists_eq_left', Nat.add_zero,
        Option.map_eq_some_iff, Prod.mk.injEq]
      constructor
      · rintro ⟨hname, rfl⟩
        exact ⟨name, hname, rfl, rfl⟩
      · rintro ⟨_, hname, rfl, rfl⟩
        exact ⟨hname, rfl⟩
    · simpa only [List.getElem?_cons_succ, Nat.add_assoc, Nat.add_comm 1] using ih (i + 1)

/-- Entries that all things of a list have. -/
theorem mapIdx_run {α : Type} (key : α → Bytes) (value : Nat → α → Symbol) (name : Bytes)
    (xs : List α) :
    Run (xs.mapIdx fun i x => (key x, value i x)) name fun i symbol =>
      ∃ x, xs[i]? = some x ∧ key x = name ∧ symbol = value i x := by
  induction xs generalizing value with
  | nil => exact .nil fun _ _ ⟨_, h, _⟩ => nomatch h
  | cons x rest ih =>
    rw [List.mapIdx_cons]
    have hentries : (key x, value 0 x) :: (rest.mapIdx fun i y => (key y, value (i + 1) y)) =
        (some (key x, value 0 x)).toList ++ rest.mapIdx fun i y => (key y, value (i + 1) y) := rfl
    rw [hentries]
    refine .cons (fun symbol => ?_) ?_
    · simp [eq_comm]
    · exact ih fun i => value (i + 1)

/-- The candidates of the lower ranks. -/
def lowerRanks (rank : Nat) (candidate : (rank position : Nat) → Symbol → Prop) :
    (rank position : Nat) → Symbol → Prop :=
  fun r position symbol => r < rank ∧ candidate r position symbol

variable {candidate : (rank position : Nat) → Symbol → Prop}

theorem lastOf_nil (name : Bytes) :
    LastOf (lowerRanks 0 candidate) (([] : List (Bytes × Symbol)).reverse.lookup name) :=
  ⟨fun _ => ⟨nofun, fun ⟨_, _, h, _⟩ => absurd h.1 (Nat.not_lt_zero _)⟩,
   fun _ _ _ _ h => absurd h.1 (Nat.not_lt_zero _), fun _ => rfl⟩

/-- Entries of the next rank behind those of the lower ones. -/
theorem lastOf_append {rank : Nat} {name : Bytes} {entries more : List (Bytes × Symbol)}
    (h : LastOf (lowerRanks rank candidate) (entries.reverse.lookup name))
    (hmore : Run more name (candidate rank)) :
    LastOf (lowerRanks (rank + 1) candidate) ((entries ++ more).reverse.lookup name) := by
  rw [List.reverse_append, List.lookup_append]
  refine ⟨fun symbol => ?_, ?_⟩
  · rw [Option.or_eq_some_iff, hmore.found, hmore.missing, h.last]
    constructor
    · rintro (⟨i, hi, hlast⟩ | ⟨hnone, r, i, ⟨hr, hi⟩, hlast⟩)
      · refine ⟨rank, i, ⟨Nat.lt_succ_self rank, hi⟩, fun r j other ⟨hr, hj⟩ => ?_⟩
        rcases Nat.lt_succ_iff_lt_or_eq.mp hr with hlt | rfl
        · exact .inl hlt
        · exact .inr ⟨rfl, hlast j other hj⟩
      · refine ⟨r, i, ⟨Nat.lt_succ_of_lt hr, hi⟩, fun r' j other ⟨hr', hj⟩ => ?_⟩
        rcases Nat.lt_succ_iff_lt_or_eq.mp hr' with hlt | rfl
        · exact hlast r' j other ⟨hlt, hj⟩
        · exact absurd hj (hnone j other)
    · rintro ⟨r, i, ⟨hr, hi⟩, hlast⟩
      rcases Nat.lt_succ_iff_lt_or_eq.mp hr with hlt | rfl
      · refine .inr ⟨fun j other hj => ?_, r, i, ⟨hlt, hi⟩, fun r' j other ⟨hr', hj⟩ => ?_⟩
        · have := hlast rank j other ⟨Nat.lt_succ_self rank, hj⟩
          omega
        · exact hlast r' j other ⟨Nat.lt_succ_of_lt hr', hj⟩
      · refine .inl ⟨i, hi, fun j other hj => ?_⟩
        have := hlast r j other ⟨Nat.lt_succ_self r, hj⟩
        omega
  · rw [Option.or_eq_none_iff, hmore.missing, h.missing]
    constructor
    · rintro ⟨hnone, hlower⟩ r i symbol ⟨hr, hi⟩
      rcases Nat.lt_succ_iff_lt_or_eq.mp hr with hlt | rfl
      · exact hlower r i symbol ⟨hlt, hi⟩
      · exact hnone i symbol hi
    · intro hnone
      exact ⟨fun i symbol hi => hnone rank i symbol ⟨Nat.lt_succ_self rank, hi⟩,
        fun r i symbol ⟨hr, hi⟩ => hnone r i symbol ⟨Nat.lt_succ_of_lt hr, hi⟩⟩

/-- The names of a scope whose entries come in three runs, one for each rank. -/
theorem lastOf_runs {name : Bytes} {types members values : List (Bytes × Symbol)}
    (htypes : Run types name (candidate 0)) (hmembers : Run members name (candidate 1))
    (hvalues : Run values name (candidate 2))
    (hrank : ∀ rank position symbol, candidate rank position symbol → rank < 3) :
    LastOf candidate ((types ++ members ++ values).reverse.lookup name) := by
  have hall := lastOf_append (lastOf_append (lastOf_append (lastOf_nil name) htypes) hmembers)
    hvalues
  have hbelow : lowerRanks 3 candidate = candidate := by
    funext rank position symbol
    exact propext ⟨fun h => h.2, fun h => ⟨hrank rank position symbol h, h⟩⟩
  rwa [hbelow, List.nil_append] at hall

/-- **The names of the scope that a declaration opens.** -/
theorem opened_names (site : Site) (name : Bytes) :
    LastOf (site.Candidate name) ((opened site).local? name) := by
  have htypes : Run (typeParameterEntries site.path site.declaration.typeParameters) name
      (site.Candidate name 0) := by
    refine (mapIdx_run (fun n => n) (.typeParameter site.path) name _).congr fun i symbol => ?_
    constructor
    · rintro ⟨n, hn, rfl, rfl⟩
      exact .typeParameter hn
    · intro h
      cases h with
      | typeParameter hn => exact ⟨name, hn, rfl, rfl⟩
  have hmembers : Run (declarationEntries site.path 0 site.declaration.members) name
      (site.Candidate name 1) := by
    refine (declarationEntries_run site.path name 0 _).congr fun i symbol => ?_
    rw [Nat.zero_add]
    constructor
    · rintro ⟨m, hm, hname, rfl⟩
      exact .member hm hname
    · intro h
      cases h with
      | member hm hname => exact ⟨_, hm, hname, rfl⟩
  have hvalues : Run (parameterEntries site.path site.declaration.parameters) name
      (site.Candidate name 2) := by
    refine (mapIdx_run Skeleton.Parameter.name (.parameter site.path) name _).congr
      fun i symbol => ?_
    constructor
    · rintro ⟨q, hq, hname, rfl⟩
      exact .parameter hq hname
    · intro h
      cases h with
      | parameter hq hname => exact ⟨_, hq, hname, rfl⟩
  refine lastOf_runs htypes hmembers hvalues fun rank i symbol h => ?_
  cases h <;> decide

/-- **The names of the root scope.** -/
theorem ofPackage_names (p : Package) (name : Bytes) :
    LastOf (p.Candidate name) ((ofPackage p).local? name) := by
  have htop : Run (declarationEntries [] 0 p.declarations) name (p.Candidate name 1) := by
    refine (declarationEntries_run [] name 0 _).congr fun i symbol => ?_
    rw [Nat.zero_add]
    constructor
    · rintro ⟨d, hd, hname, rfl⟩
      exact .top hd hname
    · intro h
      cases h with
      | top hd hname => exact ⟨_, hd, hname, rfl⟩
  have hlast := lastOf_runs (.nil nofun) htop (.nil nofun) fun rank i symbol h => by
    cases h
    decide
  rwa [List.append_nil, List.nil_append] at hlast

end Scope

end Yurin
