import Yurin.Proofs.Skeleton.Blocks
import Yurin.Proofs.Token.Pieces
import Yurin.Parser
import Yurin.Skeleton.Build

/-!
# A dump says everything

A skeleton whose names are words can be read back from its dump: two packages with one dump are
equal. A dump is made of records and lists, which are blocks of lines whatever stands in them, so
every field and every item is read back by itself; a declaration says in its first line of which
kind it is, and with that which fields it has.

* `isBlock_word`: a name takes one line and opens nothing.
* `TypeReference.dump_injective`: the dump of a type determines the type.
* `Declaration.fields_of_dump`: the dump of a declaration determines its kind and its fields.
* `Declaration.dump_injective`: so it determines the declaration.

Result: `Package.eq_of_dump_eq`.
-/

namespace Yurin.Skeleton

/-! ## Names -/

mutual

/-- The names in a type reference. -/
def TypeReference.names : TypeReference → List Bytes
  | .regular _ segments arguments _ => segments ++ typeNames arguments
  | .dynamic | .nothing => []

/-- The names in type references. -/
def typeNames : List TypeReference → List Bytes
  | [] => []
  | t :: rest => t.names ++ typeNames rest

end

/-- The names in value parameters. -/
def parameterNames (parameters : List Parameter) : List Bytes :=
  parameters.flatMap fun p => p.name :: p.type.names

mutual

/-- The names in a declaration: its own, those of its parameters, those in its types and those in
its members. -/
def Declaration.names : Declaration → List Bytes
  | .data _ _ name generics parameters bindings members =>
    name :: (generics ++ parameterNames parameters ++ typeNames bindings ++ memberNames members)
  | .trait _ name generics inherits members =>
    name :: (generics ++ typeNames inherits ++ memberNames members)
  | .typealias _ name generics expanded => name :: (generics ++ expanded.names)
  | .effect _ name generics => name :: generics
  | .impl _ dataType traitType members =>
    dataType.names ++ traitType.names ++ memberNames members
  | .function _ receiver name generics parameters returns effects =>
    name :: (typeNames receiver.toList ++ generics ++ parameterNames parameters
      ++ typeNames returns.toList ++ typeNames effects)
  | .property _ _ receiver name generics type effects =>
    name :: (typeNames receiver.toList ++ generics ++ typeNames type.toList ++ typeNames effects)

/-- The names in declarations. -/
def memberNames : List Declaration → List Bytes
  | [] => []
  | d :: rest => d.names ++ memberNames rest

end

/-- The names in a package: the parts of its own name and those in its declarations. -/
def Package.names (p : Package) : List Bytes := p.nameParts ++ memberNames p.declarations

/-- Whether names are words, as identifiers are. -/
def AreWords (names : List Bytes) : Prop := ∀ name ∈ names, Lexer.isWordText name = true

instance (names : List Bytes) : Decidable (AreWords names) :=
  inferInstanceAs (Decidable (∀ name ∈ names, Lexer.isWordText name = true))

@[simp] theorem areWords_append {names more : List Bytes} :
    AreWords (names ++ more) ↔ AreWords names ∧ AreWords more := List.forall_mem_append

@[simp] theorem areWords_cons {name : Bytes} {names : List Bytes} :
    AreWords (name :: names) ↔ Lexer.isWordText name = true ∧ AreWords names :=
  List.forall_mem_cons

theorem isWordByte_of_mem {name : Bytes} (h : Lexer.isWordText name = true) {b : UInt8}
    (hb : b ∈ name) : isWordByte b = true := by
  cases name with
  | nil => cases h
  | cons first rest =>
    rw [Lexer.isWordText, Bool.and_eq_true, List.all_eq_true] at h
    rcases List.mem_cons.mp hb with rfl | hb
    · rcases Bool.or_eq_true_iff.mp h.1 with hfirst | hfirst <;> simp [isWordByte, hfirst]
    · exact h.2 b hb

theorem isBlock_word {name : Bytes} (h : Lexer.isWordText name = true) : IsBlock name := by
  have hnot {b : UInt8} (hb : isWordByte b = false) : b ∉ name := fun hmem => by
    rw [isWordByte_of_mem h hmem] at hb
    cases hb
  have hlast {b : UInt8} (hb : isWordByte b = false) : name.getLast? ≠ some b :=
    fun heq => hnot hb (List.mem_of_getLast? heq)
  refine isBlock_line (hnot rfl) ?_
  rw [opens, Bool.or_eq_false_iff, beq_eq_false_iff_ne, beq_eq_false_iff_ne]
  exact ⟨hlast rfl, hlast rfl⟩

/-! ## Modifiers, flavors and truth values -/

@[simp] theorem isBlock_flagText (b : Bool) : IsBlock (flagText b) := by
  cases b <;> exact isBlock_line (by decide) (by decide)

theorem flagText_injective : Function.Injective flagText := by
  intro b b' h
  cases b <;> cases b' <;> first | rfl | exact absurd h (by decide)

theorem isBlock_modifier (m : Modifier) : IsBlock (utf8 m.name) := by
  cases m <;> exact isBlock_line (by decide) (by decide)

theorem modifiersDump_injective : Function.Injective modifiersDump := by
  intro ms ms' h
  have hnames : Function.Injective fun m : Modifier => utf8 m.name := by
    intro m m' h
    cases m <;> cases m' <;> first | rfl | exact absurd h (by decide)
  exact listing_map_injective isBlock_modifier (fun _ _ _ _ heq => hnames heq) h

@[simp] theorem isBlock_flavor (f : Flavor) : IsBlock (utf8 f.name) := by
  cases f <;> exact isBlock_line (by decide) (by decide)

theorem flavor_injective : Function.Injective fun f : Flavor => utf8 f.name := by
  intro f f' h
  cases f <;> cases f' <;> first | rfl | exact absurd h (by decide)

/-! ## Types -/

theorem typeDumps_eq (types : List TypeReference) :
    typeDumps types = types.map TypeReference.dump := by
  induction types with
  | nil => rfl
  | cons t rest ih => rw [typeDumps, ih, List.map_cons]

/-- The fields that are printed of a type with segments. -/
def regularFields (existential : Bool) (segments : List Bytes) (arguments : List TypeReference)
    (nullable : Bool) : List (String × Bytes) :=
  [("existential", flagText existential), ("segments", listing segments),
   ("arguments", listing (typeDumps arguments)), ("nullable", flagText nullable)]

theorem areFields_regular (existential : Bool) (segments : List Bytes)
    (arguments : List TypeReference) (nullable : Bool) :
    AreFields (regularFields existential segments arguments nullable) :=
  .cons (by decide) (isBlock_flagText _) <| .cons (by decide) (isBlock_listing _) <|
    .cons (by decide) (isBlock_listing _) <| .cons (by decide) (isBlock_flagText _) .nil

theorem TypeReference.dump_regular (existential : Bool) (segments : List Bytes)
    (arguments : List TypeReference) (nullable : Bool) :
    (TypeReference.regular existential segments arguments nullable).dump =
      record "Type.Regular" (regularFields existential segments arguments nullable) := rfl

@[simp] theorem TypeReference.isBlock_dump (t : TypeReference) : IsBlock t.dump := by
  cases t with
  | regular => exact isBlock_record (by decide) (List.cons_ne_nil _ _)
  | dynamic => exact isBlock_line (by decide) (by decide)
  | nothing => exact isBlock_line (by decide) (by decide)

/-- A list of types is read back when its items are. -/
theorem listing_typeDumps {ts ts' : List TypeReference}
    (h : listing (typeDumps ts) = listing (typeDumps ts')) : typeDumps ts = typeDumps ts' := by
  have hblocks (ts : List TypeReference) : ∀ text ∈ typeDumps ts, IsBlock text := by
    rw [typeDumps_eq]
    exact List.forall_mem_map.mpr fun t _ => t.isBlock_dump
  exact listing_injective (hblocks ts) (hblocks ts') h

theorem listing_words {names names' : List Bytes} (hw : AreWords names) (hw' : AreWords names')
    (h : listing names = listing names') : names = names' :=
  listing_injective (fun n hn => isBlock_word (hw n hn)) (fun n hn => isBlock_word (hw' n hn)) h

/-- What takes one line is not a record. -/
theorem record_ne {name : String} {fields : List (String × Bytes)} {line : Bytes}
    (h : lineFeed ∉ line) : record name fields ≠ line := fun heq =>
  h (heq ▸ lineFeed_mem_record name fields)

mutual

/-- **The dump of a type** determines the type. -/
theorem TypeReference.dump_injective : (t t' : TypeReference) → AreWords t.names →
    AreWords t'.names → t.dump = t'.dump → t = t'
  | .regular existential segments arguments nullable, t', hw, hw', h => by
    cases t' with
    | regular existential' segments' arguments' nullable' =>
      rw [TypeReference.names, areWords_append] at hw hw'
      rw [TypeReference.dump_regular, TypeReference.dump_regular] at h
      have hfields := record_injective h (by decide) (List.cons_ne_nil _ _) rfl
        (areFields_regular _ _ _ _) (areFields_regular _ _ _ _)
      simp only [regularFields, List.cons.injEq, Prod.mk.injEq, true_and, and_true] at hfields
      obtain ⟨hexistential, hsegments, harguments, hnullable⟩ := hfields
      rw [flagText_injective hexistential, listing_words hw.1 hw'.1 hsegments,
        typeDumps_injective arguments arguments' hw.2 hw'.2 (listing_typeDumps harguments),
        flagText_injective hnullable]
    | dynamic => exact absurd h (record_ne (by decide))
    | nothing => exact absurd h (record_ne (by decide))
  | .dynamic, t', hw, hw', h => by
    cases t' with
    | regular => exact absurd h.symm (record_ne (by decide))
    | dynamic => rfl
    | nothing => exact absurd h (by decide)
  | .nothing, t', hw, hw', h => by
    cases t' with
    | regular => exact absurd h.symm (record_ne (by decide))
    | dynamic => exact absurd h (by decide)
    | nothing => rfl

theorem typeDumps_injective : (ts ts' : List TypeReference) → AreWords (typeNames ts) →
    AreWords (typeNames ts') → typeDumps ts = typeDumps ts' → ts = ts'
  | [], ts', _, _, h => by
    cases ts' with
    | nil => rfl
    | cons => cases h
  | t :: ts, ts', hw, hw', h => by
    cases ts' with
    | nil => cases h
    | cons t' ts' =>
      rw [typeNames, areWords_append] at hw hw'
      obtain ⟨ht, hts⟩ := List.cons.inj h
      rw [t.dump_injective t' hw.1 hw'.1 ht, typeDumps_injective ts ts' hw.2 hw'.2 hts]

end

theorem typesListing_injective {ts ts' : List TypeReference} (hw : AreWords (typeNames ts))
    (hw' : AreWords (typeNames ts')) (h : listing (typeDumps ts) = listing (typeDumps ts')) :
    ts = ts' :=
  typeDumps_injective ts ts' hw hw' (listing_typeDumps h)

/-! ## Parts of declarations -/

@[simp] theorem isBlock_typeDump? (t : Option TypeReference) : IsBlock (typeDump? t) := by
  cases t with
  | none => exact isBlock_line (by decide) (by decide)
  | some t => exact t.isBlock_dump

theorem absent_ne_dump (t : TypeReference) : absent ≠ t.dump := by
  cases t with
  | regular => exact (record_ne (by decide)).symm
  | dynamic => decide
  | nothing => decide

theorem typeDump?_injective {t t' : Option TypeReference} (hw : AreWords (typeNames t.toList))
    (hw' : AreWords (typeNames t'.toList)) (h : typeDump? t = typeDump? t') : t = t' := by
  cases t with
  | none =>
    cases t' with
    | none => rfl
    | some t' => exact absurd h (absent_ne_dump t')
  | some t =>
    cases t' with
    | none => exact absurd h.symm (absent_ne_dump t)
    | some t' =>
      have hlist := typeDumps_injective [t] [t'] hw hw' (congrArg (fun text => [text]) h)
      exact congrArg some (List.singleton_inj.mp hlist)

theorem isBlock_typeParameterDump (name : Bytes) : IsBlock (typeParameterDump name) :=
  isBlock_record (by decide) (List.cons_ne_nil _ _)

theorem typeParametersDump_injective {names names' : List Bytes} (hw : AreWords names)
    (hw' : AreWords names') (h : typeParametersDump names = typeParametersDump names') :
    names = names' := by
  refine listing_map_injective isBlock_typeParameterDump (fun n hn n' hn' heq => ?_) h
  have hfields := record_injective heq (by decide) (List.cons_ne_nil _ _) rfl
    (.cons (by decide) (isBlock_word (hw n hn)) .nil)
    (.cons (by decide) (isBlock_word (hw' n' hn')) .nil)
  simpa using hfields

theorem Parameter.isBlock_dump (p : Parameter) : IsBlock p.dump :=
  isBlock_record (by decide) (List.cons_ne_nil _ _)

theorem parametersListing_injective {ps ps' : List Parameter} (hw : AreWords (parameterNames ps))
    (hw' : AreWords (parameterNames ps'))
    (h : listing (ps.map Parameter.dump) = listing (ps'.map Parameter.dump)) : ps = ps' := by
  have hparts {ps : List Parameter} (hw : AreWords (parameterNames ps)) {p : Parameter}
      (hp : p ∈ ps) : Lexer.isWordText p.name = true ∧ AreWords p.type.names :=
    areWords_cons.mp fun name hname => hw name (List.mem_flatMap.mpr ⟨p, hp, hname⟩)
  have hfields {ps : List Parameter} (hw : AreWords (parameterNames ps)) {p : Parameter}
      (hp : p ∈ ps) : AreFields [("name", p.name), ("type", p.type.dump)] :=
    .cons (by decide) (isBlock_word (hparts hw hp).1) <|
      .cons (by decide) p.type.isBlock_dump .nil
  refine listing_map_injective Parameter.isBlock_dump (fun p hp p' hp' heq => ?_) h
  have hsame := record_injective heq (by decide) (List.cons_ne_nil _ _) rfl (hfields hw hp)
    (hfields hw' hp')
  simp only [List.cons.injEq, Prod.mk.injEq, true_and, and_true] at hsame
  have htype := p.type.dump_injective p'.type (hparts hw hp).2 (hparts hw' hp').2 hsame.2
  cases p
  cases p'
  exact congr (congrArg Parameter.mk hsame.1) htype

/-! ## Declarations -/

namespace Declaration

/-- The fields that are printed of a declaration. -/
def fields : Declaration → List (String × Bytes)
  | .data modifiers flavor name types parameters bindings members =>
    [("modifiers", modifiersDump modifiers), ("flavor", utf8 flavor.name), ("name", name),
     ("typeParameters", typeParametersDump types),
     ("valueParameters", listing (parameters.map Parameter.dump)),
     ("bindings", listing (typeDumps bindings)), ("members", listing (declarationDumps members))]
  | .trait modifiers name types inherits members =>
    [("modifiers", modifiersDump modifiers), ("name", name),
     ("typeParameters", typeParametersDump types), ("inherits", listing (typeDumps inherits)),
     ("members", listing (declarationDumps members))]
  | .typealias modifiers name types expanded =>
    [("modifiers", modifiersDump modifiers), ("name", name),
     ("typeParameters", typeParametersDump types), ("expanded", expanded.dump)]
  | .effect modifiers name types =>
    [("modifiers", modifiersDump modifiers), ("name", name),
     ("typeParameters", typeParametersDump types)]
  | .impl modifiers dataType traitType members =>
    [("modifiers", modifiersDump modifiers), ("dataType", dataType.dump),
     ("traitType", traitType.dump), ("members", listing (declarationDumps members))]
  | .function modifiers receiver name types parameters returns effects =>
    [("modifiers", modifiersDump modifiers), ("receiver", typeDump? receiver), ("name", name),
     ("typeParameters", typeParametersDump types),
     ("valueParameters", listing (parameters.map Parameter.dump)),
     ("return", typeDump? returns), ("effects", listing (typeDumps effects))]
  | .property modifiers writable receiver name types type effects =>
    [("modifiers", modifiersDump modifiers), ("mutable", flagText writable),
     ("receiver", typeDump? receiver), ("name", name),
     ("typeParameters", typeParametersDump types), ("return", typeDump? type),
     ("effects", listing (typeDumps effects))]

theorem dump_eq (d : Declaration) : d.dump = record d.kind.name d.fields := by
  cases d <;> rfl

theorem fields_ne_nil (d : Declaration) : d.fields ≠ [] := by
  cases d <;> exact List.cons_ne_nil _ _

theorem lineFeed_notMem_kind (kind : DeclarationKind) : lineFeed ∉ utf8 kind.name := by
  cases kind <;> decide

theorem isBlock_dump (d : Declaration) : IsBlock d.dump := by
  rw [dump_eq]
  exact isBlock_record (lineFeed_notMem_kind d.kind) d.fields_ne_nil

theorem lineFeed_notMem_keys (d : Declaration) :
    ∀ key ∈ d.fields.map Prod.fst, lineFeed ∉ utf8 key := by
  cases d <;> (simp only [fields, List.map_cons, List.map_nil]; decide)

/-- Every field of a declaration is a block: only its own name has to be a word for that. -/
theorem areFields {d : Declaration} (h : ∀ name ∈ d.name?, Lexer.isWordText name = true) :
    AreFields d.fields := by
  have hname : ∀ name ∈ d.name?, IsBlock name := fun name hmem => isBlock_word (h name hmem)
  refine .of_blocks d.lineFeed_notMem_keys ?_
  cases d with
  | impl => simp [fields, modifiersDump]
  | _ => simpa [fields, name?, modifiersDump, typeParametersDump] using hname

theorem isWordText_name? {d : Declaration} (h : AreWords d.names) :
    ∀ name ∈ d.name?, Lexer.isWordText name = true := by
  intro name hname
  refine h name ?_
  cases d with
  | impl => cases hname
  | _ =>
    obtain rfl := Option.some.inj hname
    exact List.mem_cons_self

/-- Declarations with one dump are of one kind, and have the same fields. -/
theorem fields_of_dump {d d' : Declaration} (hw : AreWords d.names) (hw' : AreWords d'.names)
    (h : d.dump = d'.dump) : d.kind = d'.kind ∧ d.fields = d'.fields := by
  rw [dump_eq, dump_eq] at h
  have hname := record_name h (lineFeed_notMem_kind _) (lineFeed_notMem_kind _) d.fields_ne_nil
    d'.fields_ne_nil
  have hkind : d.kind = d'.kind := by
    revert hname
    cases d.kind <;> cases d'.kind <;> decide
  have hkeys : d.fields.map Prod.fst = d'.fields.map Prod.fst := by
    cases d <;> cases d' <;> first | rfl | cases hkind
  rw [hkind] at h
  exact ⟨hkind, record_injective h (lineFeed_notMem_kind _) d.fields_ne_nil hkeys
    (areFields (isWordText_name? hw)) (areFields (isWordText_name? hw'))⟩

end Declaration

/-- A list of declarations is read back when its items are. -/
theorem listing_declarationDumps {ds ds' : List Declaration}
    (h : listing (declarationDumps ds) = listing (declarationDumps ds')) :
    declarationDumps ds = declarationDumps ds' := by
  have hblocks (ds : List Declaration) : ∀ text ∈ declarationDumps ds, IsBlock text := by
    induction ds with
    | nil => exact List.forall_mem_nil _
    | cons d rest ih => exact List.forall_mem_cons.mpr ⟨d.isBlock_dump, ih⟩
  exact listing_injective (hblocks ds) (hblocks ds') h

mutual

/-- **The dump of a declaration** determines the declaration. -/
theorem Declaration.dump_injective : (d d' : Declaration) → AreWords d.names →
    AreWords d'.names → d.dump = d'.dump → d = d'
  | .data modifiers flavor name types parameters bindings members, d', hw, hw', h => by
    obtain ⟨hkind, hfields⟩ := Declaration.fields_of_dump hw hw' h
    cases d' with
    | data modifiers' flavor' name' types' parameters' bindings' members' =>
      simp only [Declaration.names, areWords_cons, areWords_append] at hw hw'
      simp only [Declaration.fields, List.cons.injEq, Prod.mk.injEq, true_and, and_true] at hfields
      obtain ⟨hmodifiers, hflavor, rfl, htypes, hparameters, hbindings, hmembers⟩ := hfields
      obtain ⟨-, ⟨⟨hwTypes, hwParameters⟩, hwBindings⟩, hwMembers⟩ := hw
      obtain ⟨-, ⟨⟨hwTypes', hwParameters'⟩, hwBindings'⟩, hwMembers'⟩ := hw'
      have hinner := declarationDumps_injective members members' hwMembers hwMembers'
        (listing_declarationDumps hmembers)
      rw [modifiersDump_injective hmodifiers, flavor_injective hflavor,
        typeParametersDump_injective hwTypes hwTypes' htypes,
        parametersListing_injective hwParameters hwParameters' hparameters,
        typesListing_injective hwBindings hwBindings' hbindings, hinner]
    | _ => cases hkind
  | .trait modifiers name types inherits members, d', hw, hw', h => by
    obtain ⟨hkind, hfields⟩ := Declaration.fields_of_dump hw hw' h
    cases d' with
    | trait modifiers' name' types' inherits' members' =>
      simp only [Declaration.names, areWords_cons, areWords_append] at hw hw'
      simp only [Declaration.fields, List.cons.injEq, Prod.mk.injEq, true_and, and_true] at hfields
      obtain ⟨hmodifiers, rfl, htypes, hinherits, hmembers⟩ := hfields
      obtain ⟨-, ⟨hwTypes, hwInherits⟩, hwMembers⟩ := hw
      obtain ⟨-, ⟨hwTypes', hwInherits'⟩, hwMembers'⟩ := hw'
      have hinner := declarationDumps_injective members members' hwMembers hwMembers'
        (listing_declarationDumps hmembers)
      rw [modifiersDump_injective hmodifiers, typeParametersDump_injective hwTypes hwTypes' htypes,
        typesListing_injective hwInherits hwInherits' hinherits, hinner]
    | _ => cases hkind
  | .typealias modifiers name types expanded, d', hw, hw', h => by
    obtain ⟨hkind, hfields⟩ := Declaration.fields_of_dump hw hw' h
    cases d' with
    | typealias modifiers' name' types' expanded' =>
      simp only [Declaration.names, areWords_cons, areWords_append] at hw hw'
      simp only [Declaration.fields, List.cons.injEq, Prod.mk.injEq, true_and, and_true] at hfields
      obtain ⟨hmodifiers, rfl, htypes, hexpanded⟩ := hfields
      rw [modifiersDump_injective hmodifiers, typeParametersDump_injective hw.2.1 hw'.2.1 htypes,
        expanded.dump_injective expanded' hw.2.2 hw'.2.2 hexpanded]
    | _ => cases hkind
  | .effect modifiers name types, d', hw, hw', h => by
    obtain ⟨hkind, hfields⟩ := Declaration.fields_of_dump hw hw' h
    cases d' with
    | effect modifiers' name' types' =>
      simp only [Declaration.names, areWords_cons] at hw hw'
      simp only [Declaration.fields, List.cons.injEq, Prod.mk.injEq, true_and, and_true] at hfields
      obtain ⟨hmodifiers, rfl, htypes⟩ := hfields
      rw [modifiersDump_injective hmodifiers, typeParametersDump_injective hw.2 hw'.2 htypes]
    | _ => cases hkind
  | .impl modifiers dataType traitType members, d', hw, hw', h => by
    obtain ⟨hkind, hfields⟩ := Declaration.fields_of_dump hw hw' h
    cases d' with
    | impl modifiers' dataType' traitType' members' =>
      simp only [Declaration.names, areWords_append] at hw hw'
      simp only [Declaration.fields, List.cons.injEq, Prod.mk.injEq, true_and, and_true] at hfields
      obtain ⟨hmodifiers, hdata, htrait, hmembers⟩ := hfields
      obtain ⟨⟨hwData, hwTrait⟩, hwMembers⟩ := hw
      obtain ⟨⟨hwData', hwTrait'⟩, hwMembers'⟩ := hw'
      have hinner := declarationDumps_injective members members' hwMembers hwMembers'
        (listing_declarationDumps hmembers)
      rw [modifiersDump_injective hmodifiers,
        dataType.dump_injective dataType' hwData hwData' hdata,
        traitType.dump_injective traitType' hwTrait hwTrait' htrait, hinner]
    | _ => cases hkind
  | .function modifiers receiver name types parameters returns effects, d', hw, hw', h => by
    obtain ⟨hkind, hfields⟩ := Declaration.fields_of_dump hw hw' h
    cases d' with
    | function modifiers' receiver' name' types' parameters' returns' effects' =>
      simp only [Declaration.names, areWords_cons, areWords_append] at hw hw'
      simp only [Declaration.fields, List.cons.injEq, Prod.mk.injEq, true_and, and_true] at hfields
      obtain ⟨hmodifiers, hreceiver, rfl, htypes, hparameters, hreturns, heffects⟩ := hfields
      obtain ⟨-, ⟨⟨⟨hwReceiver, hwTypes⟩, hwParameters⟩, hwReturns⟩, hwEffects⟩ := hw
      obtain ⟨-, ⟨⟨⟨hwReceiver', hwTypes'⟩, hwParameters'⟩, hwReturns'⟩, hwEffects'⟩ := hw'
      rw [modifiersDump_injective hmodifiers, typeDump?_injective hwReceiver hwReceiver' hreceiver,
        typeParametersDump_injective hwTypes hwTypes' htypes,
        parametersListing_injective hwParameters hwParameters' hparameters,
        typeDump?_injective hwReturns hwReturns' hreturns,
        typesListing_injective hwEffects hwEffects' heffects]
    | _ => cases hkind
  | .property modifiers writable receiver name types type effects, d', hw, hw', h => by
    obtain ⟨hkind, hfields⟩ := Declaration.fields_of_dump hw hw' h
    cases d' with
    | property modifiers' writable' receiver' name' types' type' effects' =>
      simp only [Declaration.names, areWords_cons, areWords_append] at hw hw'
      simp only [Declaration.fields, List.cons.injEq, Prod.mk.injEq, true_and, and_true] at hfields
      obtain ⟨hmodifiers, hwritable, hreceiver, rfl, htypes, htype, heffects⟩ := hfields
      obtain ⟨-, ⟨⟨hwReceiver, hwTypes⟩, hwType⟩, hwEffects⟩ := hw
      obtain ⟨-, ⟨⟨hwReceiver', hwTypes'⟩, hwType'⟩, hwEffects'⟩ := hw'
      rw [modifiersDump_injective hmodifiers, flagText_injective hwritable,
        typeDump?_injective hwReceiver hwReceiver' hreceiver,
        typeParametersDump_injective hwTypes hwTypes' htypes,
        typeDump?_injective hwType hwType' htype,
        typesListing_injective hwEffects hwEffects' heffects]
    | _ => cases hkind

theorem declarationDumps_injective : (ds ds' : List Declaration) → AreWords (memberNames ds) →
    AreWords (memberNames ds') → declarationDumps ds = declarationDumps ds' → ds = ds'
  | [], ds', _, _, h => by
    cases ds' with
    | nil => rfl
    | cons => cases h
  | d :: ds, ds', hw, hw', h => by
    cases ds' with
    | nil => cases h
    | cons d' ds' =>
      rw [memberNames, areWords_append] at hw hw'
      obtain ⟨hd, hds⟩ := List.cons.inj h
      rw [d.dump_injective d' hw.1 hw'.1 hd, declarationDumps_injective ds ds' hw.2 hw'.2 hds]

end

/-! ## Packages -/

/-- The fields that are printed of a package. -/
def Package.fields (p : Package) : List (String × Bytes) :=
  [("nameParts", listing p.nameParts), ("declarations", listing (declarationDumps p.declarations))]

theorem Package.areFields (p : Package) : AreFields p.fields :=
  .cons (by decide) (isBlock_listing _) <| .cons (by decide) (isBlock_listing _) .nil

/-- **A dump says everything.** Packages whose names are words are equal when their dumps are: the
kinds of declarations, their nesting and order, names, modifiers, flavors, parameters and types can
all be read back. -/
theorem Package.eq_of_dump_eq {p q : Package} (hp : AreWords p.names) (hq : AreWords q.names)
    (h : p.dump = q.dump) : p = q := by
  have hfields : p.fields = q.fields :=
    record_injective h (by decide) (List.cons_ne_nil _ _) rfl p.areFields q.areFields
  simp only [Package.fields, List.cons.injEq, Prod.mk.injEq, true_and, and_true] at hfields
  rw [Package.names, areWords_append] at hp hq
  have hparts := listing_words hp.1 hq.1 hfields.1
  have hdeclarations := declarationDumps_injective _ _ hp.2 hq.2
    (listing_declarationDumps hfields.2)
  cases p
  cases q
  exact congr (congrArg Package.mk hparts) hdeclarations

/-- A skeleton that is read from a source, found by its dump. -/
theorem Package.eq_of_dump_eq_trait :
    let p : Package := ⟨[], [.trait [.sealed] (utf8 "Up") [] [.regular false [utf8 "T"] [] true]
      [.effect [] (utf8 "Do") [utf8 "T"]]]⟩
    let source := utf8 "sealed trait Up : T? \x7b effect Do<T> \x7d"
    let q := match ofFile (parse source).file with
      | .ok (q, _) => q
      | .error _ => .empty
    AreWords p.names ∧ AreWords q.names ∧ p.dump = q.dump ∧ p = q := by
  intro p source q
  have hp : AreWords p.names := by decide +kernel
  obtain ⟨hq, hdump⟩ : AreWords q.names ∧ p.dump = q.dump := by decide +kernel
  exact ⟨hp, hq, hdump, eq_of_dump_eq hp hq hdump⟩

end Yurin.Skeleton
