import Yurin.Proofs.Skeleton.Source

/-!
# The pieces of a skeleton

The source of a skeleton is made of pieces: `Package.textOf_pieces`. The lexer finds these pieces in
it, because each of them may stand before the next: `Package.linked`.
-/

namespace Yurin.Skeleton

open Lexer (isName)

/-! ## The pieces -/

/-- A dotted name. -/
def dottedPieces (parts : List Bytes) : List Piece :=
  separated [.mark .dot] (parts.map fun n => [.name n])

mutual

/-- The pieces of a type. -/
def TypeReference.pieces : TypeReference → List Piece
  | .regular existential segments arguments nullable =>
    (if existential then [.word .exist, .blank] else []) ++ dottedPieces segments
      ++ (if arguments.isEmpty then []
          else .mark .leftAngle :: commaPieces (typePieces arguments) ++ [.mark .rightAngle])
      ++ (if nullable then [.mark .nullable] else [])
  | .dynamic => [.word .dynamic]
  | .nothing => [.word .nothing]

/-- The pieces of types, one by one. -/
def typePieces : List TypeReference → List (List Piece)
  | [] => []
  | t :: rest => t.pieces :: typePieces rest

end

/-- The pieces of modifiers. -/
def modifierPieces (modifiers : List Modifier) : List Piece :=
  modifiers.flatMap fun m => [.word m.keyword, .blank]

/-- The pieces of a flavor. -/
def Flavor.pieces : Flavor → List Piece
  | .none => []
  | .value => [.word .val, .blank]
  | .reference => [.word .ref, .blank]

/-- The pieces of type parameters. -/
def genericsPieces (names : List Bytes) : List Piece :=
  if names.isEmpty then []
  else .mark .leftAngle :: commaPieces (names.map fun n => [.name n]) ++ [.mark .rightAngle]

/-- The pieces of a value parameter. -/
def Parameter.pieces (p : Parameter) : List Piece :=
  .name p.name :: .blank :: .mark .colon :: .blank :: p.type.pieces

/-- The pieces of value parameters. -/
def parametersPieces (parameters : List Parameter) : List Piece :=
  .mark .leftParen :: commaPieces (parameters.map Parameter.pieces) ++ [.mark .rightParen]

/-- The pieces of types after a mark. -/
def typesPieces (mark : Mark) (types : List TypeReference) : List Piece :=
  if types.isEmpty then []
  else .blank :: .mark mark :: .blank :: commaPieces (types.map TypeReference.pieces)

/-- The pieces of a receiver. -/
def receiverPieces : Option TypeReference → List Piece
  | none => []
  | some type => .mark .leftParen :: type.pieces ++ [.mark .rightParen, .mark .dot]

/-- The pieces of a body. -/
def bodyPieces (lines : List Piece) : List Piece :=
  if lines.isEmpty then []
  else .blank :: .mark .leftBrace :: .lineEnd :: lines ++ [.mark .rightBrace]

mutual

/-- The pieces of a declaration. -/
def Declaration.pieces : Declaration → List Piece
  | .data modifiers flavor name generics parameters bindings members =>
    modifierPieces modifiers ++ flavor.pieces ++ [.word .data, .blank, .name name]
      ++ genericsPieces generics
      ++ (if parameters.isEmpty then [] else parametersPieces parameters)
      ++ typesPieces .colon bindings ++ bodyPieces (linesPieces members)
  | .trait modifiers name generics inherits members =>
    modifierPieces modifiers ++ [.word .trait, .blank, .name name] ++ genericsPieces generics
      ++ typesPieces .colon inherits ++ bodyPieces (linesPieces members)
  | .typealias modifiers name generics expanded =>
    modifierPieces modifiers ++ [.word .typealias, .blank, .name name] ++ genericsPieces generics
      ++ typesPieces .eq [expanded]
  | .effect modifiers name generics =>
    modifierPieces modifiers ++ [.word .effect, .blank, .name name] ++ genericsPieces generics
  | .impl modifiers dataType traitType members =>
    modifierPieces modifiers ++ [.word .impl, .blank] ++ dataType.pieces
      ++ typesPieces .colon [traitType] ++ bodyPieces (linesPieces members)
  | .function modifiers receiver name generics parameters returns effects =>
    modifierPieces modifiers ++ [.word .fun_, .blank]
      ++ (if generics.isEmpty then [] else genericsPieces generics ++ [.blank])
      ++ receiverPieces receiver ++ [.name name] ++ parametersPieces parameters
      ++ typesPieces .colon returns.toList ++ typesPieces .divide effects
  | .property modifiers writable receiver name generics type effects =>
    modifierPieces modifiers ++ [.word (if writable then .var else .val), .blank]
      ++ (if generics.isEmpty then [] else genericsPieces generics ++ [.blank])
      ++ receiverPieces receiver ++ [.name name] ++ typesPieces .colon type.toList
      ++ typesPieces .divide effects

/-- The pieces of declarations as lines. -/
def linesPieces : List Declaration → List Piece
  | [] => []
  | d :: rest => d.pieces ++ .lineEnd :: linesPieces rest

end

/-- The pieces of a package line. -/
def headerPieces (parts : List Bytes) : List Piece :=
  if parts.isEmpty then [] else .word .package :: .blank :: dottedPieces parts ++ [.lineEnd]

/-- **The pieces of a skeleton.** -/
def Package.pieces (p : Package) : List Piece :=
  headerPieces p.nameParts ++ linesPieces p.declarations

/-! ## The text of the pieces -/

theorem typePieces_eq (types : List TypeReference) :
    typePieces types = types.map TypeReference.pieces := by
  induction types with
  | nil => rfl
  | cons t rest ih => rw [typePieces, ih, List.map_cons]

theorem textOf_commas (items : List (List Piece)) :
    textOf (commaPieces items) = commaText (items.map textOf) :=
  textOf_separated [.mark .comma, .blank] items

theorem textOf_dotted (parts : List Bytes) :
    textOf (dottedPieces parts) = Bytes.join (utf8 ".") parts := by
  rw [dottedPieces, textOf_separated, List.map_map]
  have hname : (textOf ∘ fun n => [Piece.name n]) = id := funext fun n => List.append_nil n
  rw [hname, List.map_id]
  rfl

mutual

theorem TypeReference.textOf_pieces : (t : TypeReference) → textOf t.pieces = t.text
  | .regular existential segments arguments nullable => by
    rw [TypeReference.pieces, TypeReference.text, textOf_append, textOf_append, textOf_append,
      textOf_dotted]
    congr 1
    · congr 1
      · cases existential <;> rfl
      · split
        · rfl
        · rw [List.cons_append, textOf_cons, textOf_append, textOf_commas,
            textOf_typePieces arguments]
          rfl
    · cases nullable <;> rfl
  | .dynamic => rfl
  | .nothing => rfl

theorem textOf_typePieces : (types : List TypeReference) →
    (typePieces types).map textOf = typeTexts types
  | [] => rfl
  | t :: rest => by
    rw [typePieces, typeTexts, List.map_cons, TypeReference.textOf_pieces t, textOf_typePieces rest]

end

theorem textOf_modifiers (modifiers : List Modifier) :
    textOf (modifierPieces modifiers) = modifiersText modifiers := by
  induction modifiers with
  | nil => rfl
  | cons m rest ih =>
    rw [modifierPieces, List.flatMap_cons, textOf_append, ← modifierPieces, ih]
    rfl

theorem Flavor.textOf_pieces (flavor : Flavor) : textOf flavor.pieces = flavor.text := by
  cases flavor <;> rfl

theorem textOf_generics (names : List Bytes) :
    textOf (genericsPieces names) = genericsText names := by
  unfold genericsPieces genericsText
  split
  · rfl
  · have hnames : names.map (textOf ∘ fun n => [Piece.name n]) = names := by
      have hname : (textOf ∘ fun n => [Piece.name n]) = id := funext fun n => List.append_nil n
      rw [hname, List.map_id]
    rw [List.cons_append, textOf_cons, textOf_append, textOf_commas, List.map_map, hnames]
    rfl

theorem textOf_parameters (parameters : List Parameter) :
    textOf (parametersPieces parameters) = parametersText parameters := by
  have hone (p : Parameter) : textOf p.pieces = p.text := by
    simp only [Parameter.pieces, textOf_cons, TypeReference.textOf_pieces, Parameter.text,
      List.append_assoc]
    rfl
  rw [parametersPieces, parametersText, List.cons_append, textOf_cons, textOf_append,
    textOf_commas, List.map_map, funext hone (f := textOf ∘ Parameter.pieces)]
  rfl

theorem textOf_types (mark : Mark) (types : List TypeReference) :
    textOf (typesPieces mark types) = typesText mark types := by
  unfold typesPieces typesText
  split
  · rfl
  · rw [textOf_cons, textOf_cons, textOf_cons, textOf_commas, List.map_map,
      funext TypeReference.textOf_pieces (f := textOf ∘ TypeReference.pieces), List.append_assoc,
      List.append_assoc]
    rfl

theorem textOf_receiver (receiver : Option TypeReference) :
    textOf (receiverPieces receiver) = receiverText receiver := by
  cases receiver with
  | none => rfl
  | some t =>
    rw [receiverPieces, receiverText, List.cons_append, textOf_cons, textOf_append,
      TypeReference.textOf_pieces, List.append_assoc]
    rfl

/-- Type parameters with a blank after them. -/
theorem textOf_leadingGenerics (names : List Bytes) :
    textOf (if names.isEmpty then [] else genericsPieces names ++ [.blank]) =
      if names.isEmpty then [] else genericsText names ++ utf8 " " := by
  split
  · rfl
  · rw [textOf_append, textOf_generics]
    rfl

/-- Lines have a text exactly when there are lines. -/
theorem textOf_body {lines : List Piece} {text : Bytes} (h : textOf lines = text)
    (hne : lines ≠ [] → text ≠ []) : textOf (bodyPieces lines) = bodyText text := by
  unfold bodyPieces bodyText
  cases lines with
  | nil =>
    subst h
    rfl
  | cons p ps =>
    have htext : text ≠ [] := hne (List.cons_ne_nil p ps)
    rw [if_neg (by simp), if_neg (by simpa using htext)]
    rw [List.cons_append, List.cons_append, List.cons_append, textOf_cons, textOf_cons, textOf_cons,
      textOf_append, h, List.append_assoc]
    rfl

theorem linesSource_ne_nil {ds : List Declaration} (h : linesPieces ds ≠ []) :
    linesSource ds ≠ [] := by
  cases ds with
  | nil => exact absurd rfl h
  | cons d ds => simp [linesSource, show utf8 "\n" = [10] from rfl]

mutual

theorem Declaration.textOf_pieces : (d : Declaration) → textOf d.pieces = d.source
  | .data modifiers flavor name generics parameters bindings members => by
    have hbody := textOf_body (textOf_lines members) linesSource_ne_nil
    simp only [Declaration.pieces, Declaration.source, textOf_append, textOf_cons, textOf_nil,
      List.nil_append, textOf_modifiers,
      Flavor.textOf_pieces, textOf_generics, textOf_types, hbody, List.append_assoc]
    split
    · rfl
    · rw [textOf_parameters]
      rfl
  | .trait modifiers name generics inherits members => by
    have hbody := textOf_body (textOf_lines members) linesSource_ne_nil
    simp only [Declaration.pieces, Declaration.source, textOf_append, textOf_cons, textOf_nil,
      List.nil_append, textOf_modifiers,
      textOf_generics, textOf_types, hbody, List.append_assoc]
    rfl
  | .typealias modifiers name generics expanded => by
    simp only [Declaration.pieces, Declaration.source, textOf_append, textOf_cons, textOf_nil,
      List.nil_append, textOf_modifiers,
      textOf_generics, textOf_types, List.append_assoc]
    rfl
  | .effect modifiers name generics => by
    simp only [Declaration.pieces, Declaration.source, textOf_append, textOf_cons, textOf_nil,
      List.nil_append, textOf_modifiers,
      textOf_generics, List.append_assoc]
    rfl
  | .impl modifiers dataType traitType members => by
    have hbody := textOf_body (textOf_lines members) linesSource_ne_nil
    simp only [Declaration.pieces, Declaration.source, textOf_append, textOf_cons, textOf_nil,
      List.nil_append, textOf_modifiers,
      TypeReference.textOf_pieces, textOf_types, hbody, List.append_assoc]
    rfl
  | .function modifiers receiver name generics parameters returns effects => by
    simp only [Declaration.pieces, Declaration.source, textOf_append, textOf_cons, textOf_nil,
      List.nil_append, textOf_modifiers,
      textOf_leadingGenerics, textOf_receiver, textOf_parameters, textOf_types, List.append_assoc]
    rfl
  | .property modifiers writable receiver name generics type effects => by
    simp only [Declaration.pieces, Declaration.source, textOf_append, textOf_cons, textOf_nil,
      List.nil_append, textOf_modifiers,
      textOf_leadingGenerics, textOf_receiver, textOf_types, List.append_assoc]
    cases writable <;> rfl

theorem textOf_lines : (ds : List Declaration) → textOf (linesPieces ds) = linesSource ds
  | [] => rfl
  | d :: rest => by
    rw [linesPieces, linesSource, textOf_append, textOf_cons, Declaration.textOf_pieces d,
      textOf_lines rest, List.append_assoc]
    rfl

end

/-- **The source of a skeleton is the text of its pieces.** -/
theorem Package.textOf_pieces (p : Package) : textOf p.pieces = p.source := by
  rw [Package.pieces, Package.source, textOf_append, textOf_lines]
  congr 1
  unfold headerPieces
  split
  · rfl
  · rw [List.cons_append, List.cons_append, textOf_cons, textOf_cons, textOf_append, textOf_dotted,
      List.append_assoc]
    rfl

/-! ## The pieces are linked -/

theorem phrase_dotted {parts : List Bytes} (hne : parts ≠ []) (h : parts.all isName = true) :
    Phrase (dottedPieces parts) := by
  induction parts with
  | nil => contradiction
  | cons n rest ih =>
    simp only [List.all_cons, Bool.and_eq_true] at h
    cases rest with
    | nil => exact phrase_name h.1
    | cons m rest =>
      have hrest := ih (by simp) h.2
      refine ⟨beginsWord_name h.1 _, fun next hn => ⟨.name h.1, ?_, .mark (by decide), ?_, ?_⟩⟩
      · rintro b ⟨⟩
        rfl
      · exact hrest.begins.allows_mark .dot next
      · exact hrest.linked next hn

/-- A part that is left out in one case. -/
theorem part_ite {c : Prop} [Decidable c] {ps : List Piece} (h : ¬ c → Part ps) :
    Part (if c then [] else ps) := by
  split
  · exact .nil
  · exact h ‹_›

mutual

theorem TypeReference.phrase : (t : TypeReference) → t.isWritable = true → Phrase t.pieces
  | .regular existential segments arguments nullable, h => by
    simp only [TypeReference.isWritable, Bool.and_eq_true, Bool.not_eq_true',
      List.isEmpty_eq_false_iff] at h
    obtain ⟨⟨hne, hnames⟩, hargs⟩ := h
    have hlist : Part (if arguments.isEmpty then []
        else .mark .leftAngle :: commaPieces (typePieces arguments) ++ [.mark .rightAngle]) := by
      refine part_ite fun hsome => (phrase_commas ?_ (phrase_typePieces arguments hargs)).angles
      rw [typePieces_eq]
      simpa using hsome
    have hmark : Part (if nullable then [.mark .nullable] else []) := by
      cases nullable with
      | true =>
        exact ⟨fun _ _ => parted_byte rfl rfl,
          fun _ hn => ⟨.mark (by decide), hn.allows_mark .nullable, trivial⟩⟩
      | false => exact .nil
    have hrest := ((phrase_dotted hne hnames).append hlist).append hmark
    rw [TypeReference.pieces]
    cases existential with
    | true => exact hrest.solid.word (by decide)
    | false => exact hrest
  | .dynamic, _ => phrase_word (by decide)
  | .nothing, _ => phrase_word (by decide)

theorem phrase_typePieces : (types : List TypeReference) → areWritable types = true →
    ∀ ps ∈ typePieces types, Phrase ps
  | [], _ => nofun
  | t :: rest, h => by
    simp only [areWritable, Bool.and_eq_true] at h
    intro ps hps
    rcases List.mem_cons.mp hps with heq | hps
    · rw [heq]
      exact TypeReference.phrase t h.1
    · exact phrase_typePieces rest h.2 ps hps

end

theorem part_generics {names : List Bytes} (h : names.all isName = true) :
    Part (genericsPieces names) := by
  refine part_ite fun hsome => (phrase_commas (by simpa using hsome) ?_).angles
  intro ps hps
  obtain ⟨n, hn, rfl⟩ := List.mem_map.mp hps
  exact phrase_name (List.all_eq_true.mp h n hn)

theorem phrase_parameter {p : Parameter} (h : p.isWritable = true) : Phrase p.pieces := by
  simp only [Parameter.isWritable, Bool.and_eq_true] at h
  have htype := TypeReference.phrase p.type h.2
  refine ⟨beginsWord_name h.1 _, fun next hn => ⟨.name h.1, ?_, .blank, ?_, .mark (by decide), ?_,
    .blank, htype.begins.allows_blank next, htype.linked next hn⟩⟩
  · exact (parted_byte rfl rfl : Parted (some 32)).allows_name
  · rintro b ⟨⟩
    rfl
  · exact (parted_byte rfl rfl : Parted (some 32)).allows_mark .colon

theorem part_parameters {parameters : List Parameter}
    (h : parameters.all Parameter.isWritable = true) : Part (parametersPieces parameters) := by
  refine ⟨fun _ _ => parted_byte rfl rfl, fun next hn => ⟨.mark (by decide), fun _ _ => rfl, ?_⟩⟩
  cases parameters with
  | nil => exact ⟨.mark (by decide), fun _ _ => rfl, trivial⟩
  | cons p rest =>
    refine (phrase_commas (by simp) ?_).close .rightParen (by decide) (parted_byte rfl rfl) hn
    intro ps hps
    obtain ⟨p, hp, rfl⟩ := List.mem_map.mp hps
    exact phrase_parameter (List.all_eq_true.mp h p hp)

theorem part_types {mark : Mark} (hm : mark ∈ Lexer.plainMarks)
    (hblank : ∀ b ∈ (Piece.mark mark).text.head?, Kind.whitespace.allows b = true)
    {types : List TypeReference} (h : areWritable types = true) :
    Part (typesPieces mark types) := by
  refine part_ite fun hsome => ?_
  have htypes : Phrase (commaPieces (types.map TypeReference.pieces)) := by
    refine phrase_commas (by simpa using hsome) ?_
    rw [← typePieces_eq]
    exact phrase_typePieces types h
  refine ⟨fun _ _ => parted_byte rfl rfl, fun next hn => ⟨.blank, hblank, .mark hm, ?_, .blank,
    htypes.begins.allows_blank next, htypes.linked next hn⟩⟩
  exact (parted_byte rfl rfl : Parted (some 32)).allows_mark mark

/-- The first byte of lines may come after the end of a line. -/
theorem firstByte_lines {ds : List Declaration} (h : ∀ d ∈ ds, Phrase d.pieces)
    {next : Option UInt8} (hn : ∀ b ∈ next, Kind.newline.allows b = true) :
    ∀ b ∈ firstByte (linesPieces ds) next, Kind.newline.allows b = true := by
  cases ds with
  | nil => exact hn
  | cons d rest => exact ((h d List.mem_cons_self).begins.append _).allows_lineEnd next

theorem linked_lines {ds : List Declaration} (h : ∀ d ∈ ds, Phrase d.pieces)
    {next : Option UInt8} (hn : ∀ b ∈ next, Kind.newline.allows b = true) :
    Linked (linesPieces ds) next := by
  induction ds with
  | nil => trivial
  | cons d rest ih =>
    have hrest : ∀ d ∈ rest, Phrase d.pieces := fun d hd => h d (List.mem_cons_of_mem _ hd)
    rw [linesPieces, linked_append]
    refine ⟨(h d List.mem_cons_self).linked _ (parted_byte rfl rfl), .lineEnd, ?_, ih hrest⟩
    exact firstByte_lines hrest hn

theorem part_body {ds : List Declaration} (h : ∀ d ∈ ds, Phrase d.pieces) :
    Part (bodyPieces (linesPieces ds)) := by
  have hbrace : ∀ b ∈ some (125 : UInt8), Kind.newline.allows b = true := by
    rintro b ⟨⟩
    rfl
  refine part_ite fun _ => ⟨fun _ _ => parted_byte rfl rfl, fun next hn => ⟨.blank, ?_,
    .mark (by decide), fun _ _ => rfl, .lineEnd, ?_, linked_append.mpr ⟨?_, ?_⟩⟩⟩
  · rintro b ⟨⟩
    rfl
  · rw [List.append_eq, firstByte_append]
    exact firstByte_lines h hbrace
  · exact linked_lines h hbrace
  · exact ⟨.mark (by decide), hn.allows_mark .rightBrace, trivial⟩

theorem phrase_modifiers {ps : List Piece} (h : Phrase ps) (modifiers : List Modifier) :
    Phrase (modifierPieces modifiers ++ ps) := by
  induction modifiers with
  | nil => exact h
  | cons m rest ih => exact ih.solid.word (by cases m <;> decide)

theorem phrase_flavor {ps : List Piece} (h : Phrase ps) (flavor : Flavor) :
    Phrase (flavor.pieces ++ ps) := by
  cases flavor with
  | none => exact h
  | value => exact h.solid.word (by decide)
  | reference => exact h.solid.word (by decide)

theorem solid_generics {names : List Bytes} (h : names.all isName = true) {ps : List Piece}
    (hp : Solid ps) :
    Solid ((if names.isEmpty then [] else genericsPieces names ++ [.blank]) ++ ps) := by
  split
  · exact hp
  · rename_i hsome
    have hpart := part_generics h
    refine ⟨fun next b hb => ?_, fun next hn => ?_⟩
    · rw [genericsPieces, if_neg hsome] at hb
      cases hb
      rfl
    · rw [List.append_assoc, linked_append]
      exact ⟨hpart.linked _ (parted_byte rfl rfl), .blank, hp.begins next, hp.linked next hn⟩

theorem solid_receiver {receiver : Option TypeReference}
    (h : areWritable receiver.toList = true) {ps : List Piece} (hp : Phrase ps) :
    Solid (receiverPieces receiver ++ ps) := by
  cases receiver with
  | none => exact hp.solid
  | some t =>
    have ht := TypeReference.phrase t (by simpa [areWritable] using h)
    refine ⟨?_, fun next hn => ?_⟩
    · rintro next b ⟨⟩
      rfl
    · rw [receiverPieces, List.append_assoc]
      refine ⟨.mark (by decide), fun _ _ => rfl, linked_append.mpr ⟨?_, .mark (by decide),
        fun _ _ => rfl, .mark (by decide), hp.begins.allows_mark .dot next, hp.linked next hn⟩⟩
      exact ht.linked _ (parted_byte rfl rfl)

/-- What comes after the name of a function or a property. -/
theorem phrase_signature {name : Bytes} (hname : isName name = true) {generics : List Bytes}
    (hgenerics : generics.all isName = true) {receiver : Option TypeReference}
    (hreceiver : areWritable receiver.toList = true) {w : Keyword} (hw : w ∈ Lexer.plainWords)
    {ps : List Piece} (hp : Part ps) (modifiers : List Modifier) :
    Phrase (modifierPieces modifiers ++ ([.word w, .blank] ++
      ((if generics.isEmpty then [] else genericsPieces generics ++ [.blank]) ++
        (receiverPieces receiver ++ ([.name name] ++ ps))))) := by
  have hnamed := (phrase_name hname).append hp
  have hsolid := solid_generics hgenerics (solid_receiver hreceiver hnamed)
  exact phrase_modifiers (hsolid.word hw) modifiers

/-- What a declaration with a name begins with. -/
theorem phrase_named {name : Bytes} (hname : isName name = true) {w : Keyword}
    (hw : w ∈ Lexer.plainWords) {ps : List Piece} (hp : Part ps) :
    Phrase ([.word w, .blank, .name name] ++ ps) :=
  ((phrase_name hname).append hp).solid.word hw

theorem part_colon {types : List TypeReference} (h : areWritable types = true) :
    Part (typesPieces .colon types) :=
  part_types (by decide) (by rintro b ⟨⟩; rfl) h

theorem part_divide {types : List TypeReference} (h : areWritable types = true) :
    Part (typesPieces .divide types) :=
  part_types (by decide) (by rintro b ⟨⟩; rfl) h

mutual

theorem Declaration.phrase : (d : Declaration) → d.isWritable = true → Phrase d.pieces
  | .data modifiers flavor name generics parameters bindings members, h => by
    simp only [Declaration.isWritable, Bool.and_eq_true] at h
    obtain ⟨⟨⟨⟨hname, hgenerics⟩, hparameters⟩, hbindings⟩, hmembers⟩ := h
    have hvalues : Part (if parameters.isEmpty then [] else parametersPieces parameters) :=
      part_ite fun _ => part_parameters hparameters
    have hparts := (part_generics hgenerics).append (hvalues.append ((part_colon hbindings).append
      (part_body (phrase_members members hmembers))))
    simp only [Declaration.pieces, List.append_assoc]
    exact phrase_modifiers (phrase_flavor (phrase_named hname (by decide) hparts) flavor) modifiers
  | .trait modifiers name generics inherits members, h => by
    simp only [Declaration.isWritable, Bool.and_eq_true] at h
    obtain ⟨⟨⟨hname, hgenerics⟩, hinherits⟩, hmembers⟩ := h
    have hparts := (part_generics hgenerics).append ((part_colon hinherits).append
      (part_body (phrase_members members hmembers)))
    simp only [Declaration.pieces, List.append_assoc]
    exact phrase_modifiers (phrase_named hname (by decide) hparts) modifiers
  | .typealias modifiers name generics expanded, h => by
    simp only [Declaration.isWritable, Bool.and_eq_true] at h
    obtain ⟨⟨hname, hgenerics⟩, hexpanded⟩ := h
    have heq : Part (typesPieces .eq [expanded]) :=
      part_types (by decide) (by rintro b ⟨⟩; rfl) (by simpa [areWritable] using hexpanded)
    simp only [Declaration.pieces, List.append_assoc]
    exact phrase_modifiers (phrase_named hname (by decide) ((part_generics hgenerics).append heq))
      modifiers
  | .effect modifiers name generics, h => by
    simp only [Declaration.isWritable, Bool.and_eq_true] at h
    simp only [Declaration.pieces, List.append_assoc]
    exact phrase_modifiers (phrase_named h.1 (by decide) (part_generics h.2)) modifiers
  | .impl modifiers dataType traitType members, h => by
    simp only [Declaration.isWritable, Bool.and_eq_true] at h
    obtain ⟨⟨hdata, htrait⟩, hmembers⟩ := h
    have hcolon : Part (typesPieces .colon [traitType]) :=
      part_colon (by simpa [areWritable] using htrait)
    have hparts := hcolon.append (part_body (phrase_members members hmembers))
    have htypes := (TypeReference.phrase dataType hdata).append hparts
    simp only [Declaration.pieces, List.append_assoc]
    exact phrase_modifiers (htypes.solid.word (by decide)) modifiers
  | .function modifiers receiver name generics parameters returns effects, h => by
    simp only [Declaration.isWritable, Bool.and_eq_true] at h
    obtain ⟨⟨⟨⟨⟨hreceiver, hname⟩, hgenerics⟩, hparameters⟩, hreturns⟩, heffects⟩ := h
    have hparts := (part_parameters hparameters).append
      ((part_colon hreturns).append (part_divide heffects))
    simp only [Declaration.pieces, List.append_assoc]
    exact phrase_signature hname hgenerics hreceiver (by decide) hparts modifiers
  | .property modifiers writable receiver name generics type effects, h => by
    simp only [Declaration.isWritable, Bool.and_eq_true] at h
    obtain ⟨⟨⟨⟨hreceiver, hname⟩, hgenerics⟩, htype⟩, heffects⟩ := h
    have hparts := (part_colon htype).append (part_divide heffects)
    simp only [Declaration.pieces, List.append_assoc]
    exact phrase_signature hname hgenerics hreceiver (by cases writable <;> decide) hparts modifiers

theorem phrase_members : (ds : List Declaration) → membersWritable ds = true →
    ∀ d ∈ ds, Phrase d.pieces
  | [], _ => nofun
  | d :: rest, h => by
    simp only [membersWritable, Bool.and_eq_true] at h
    intro e he
    rcases List.mem_cons.mp he with heq | he
    · rw [heq]
      exact Declaration.phrase d h.1
    · exact phrase_members rest h.2 e he

end

/-- **The lexer finds the pieces of a skeleton in its source.** -/
theorem Package.linked {p : Package} (h : p.isWritable = true) : Linked p.pieces none := by
  simp only [Package.isWritable, Bool.and_eq_true] at h
  have hlines := phrase_members p.declarations h.2
  rw [Package.pieces, linked_append]
  refine ⟨?_, linked_lines hlines nofun⟩
  unfold headerPieces
  split
  · trivial
  · rename_i hsome
    have hdotted := phrase_dotted (by simpa using hsome) h.1
    have hheader := hdotted.solid.word (w := .package) (by decide)
    have hline : Linked [.lineEnd] (firstByte (linesPieces p.declarations) none) :=
      ⟨.lineEnd, firstByte_lines hlines nofun, trivial⟩
    exact linked_append.mpr ⟨hheader.linked (some 10) (parted_byte rfl rfl), hline⟩

end Yurin.Skeleton