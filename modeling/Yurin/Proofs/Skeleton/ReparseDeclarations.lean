import Yurin.Proofs.Skeleton.ReparseParts

/-!
# Parsing the declarations of a skeleton

Each kind of declaration is found by its parser (`Completes`), so one level of the grammar finds
declarations that have one token more (`grammar_reparses`). `grammarUpTo_reparses` shows by
induction on the depth that the grammar finds them all: what is inside a declaration has fewer
tokens than the whole.
-/

namespace Yurin.Skeleton

open Yurin.Parser

section Kinds

variable {n : Nat} {P : Productions} {β : Type} {mode : LineMode} {s s₀ : State} {qs : List Piece}
  {tail : List Lexeme}

/-! ## Kinds of declarations -/

/-- The parser has read modifiers since `s₀` and stands before the pieces `ps`; the rest of the
declaration `d` is found. -/
def Completes (p : Parser Yurin.Declaration) (s₀ : State) (ps : List Piece) (d : Declaration) :
    Prop :=
  ∀ ⦃mode : LineMode⦄ ⦃s : State⦄ ⦃qs : List Piece⦄ ⦃tail : List Lexeme⦄, Clean s₀ s →
    s.Before (ps ++ qs) tail → EndsDeclaration (opening qs tail) →
      Ensures p mode s fun tree s' => Builds tree d ∧ Clean s₀ s' ∧ s'.Before qs tail

variable {ts : List Token} {ms : List Modifier}

theorem dataDeclaration_completes (hP : Reparses n P) (hms : ts.mapM modifierOf = .ok ms)
    (word : Option Token) {name : Bytes} {generics : List Bytes} {parameters : List Parameter}
    {bindings : List TypeReference} {members : List Declaration}
    (hd : (Declaration.data ms (flavorOf word) name generics parameters bindings members).isWritable
      = true)
    (hsize : size (Declaration.data ms (flavorOf word) name generics parameters bindings
      members).pieces ≤ n + 1) :
    Completes (dataDeclaration P ts word) s₀
      ([.word .data, .blank, .name name] ++ (genericsPieces generics
        ++ ((if parameters.isEmpty then [] else parametersPieces parameters)
          ++ (typesPieces .colon bindings ++ bodyPieces (linesPieces members)))))
      (.data ms (flavorOf word) name generics parameters bindings members) := by
  intro mode s qs tail hc hb hn
  simp only [List.append_assoc] at hb
  simp only [Declaration.pieces, size_append, size_word, size_blank, size_name, size_nil] at hsize
  simp only [Declaration.isWritable, Bool.and_eq_true] at hd
  obtain ⟨⟨⟨⟨-, -⟩, hparameters⟩, hbindings⟩, hmembers⟩ := hd
  have hbody := hn.markIn.body (linesPieces members)
  have htypes := hbody.types .colon bindings
  have hvalues := htypes.parameters parameters
  unfold dataDeclaration
  refine namedHead_then ts hc hb (hvalues.ne (by decide)) fun head s₁ hhead hc hb₁ => ?_
  refine (valueParameters?_yields hP hparameters (by omega)).then hc hb₁ (htypes.ne (by decide))
    fun values s₂ hvalues hc hb₂ => ?_
  refine (typesAfter?_yields hP .colon hbindings (by omega)).then hc hb₂
    ⟨⟨hbody.endsType (by decide), hbody.ne (by decide)⟩, hbody.ne (by decide)⟩
    fun es s₃ hes hc hb₃ => ?_
  refine (typeBody?_yields hP hmembers (by omega)).then hc hb₃ (hn.markIn.ne (by decide))
    fun body s₄ htrees hc hb₄ => ?_
  rw [ensures_pure]
  refine ⟨fun path => ?_, hc, hb₄⟩
  obtain ⟨i, hname, rfl⟩ := hhead.name
  obtain ⟨index, hindex⟩ := bodyOf_builds htrees path
  rw [declarationOf, hname, hhead.modifiers, hms]
  simp only [bind, Except.bind, hindex, typeParametersOf, parametersOf, hhead.generics,
    typedParameters_eq hvalues, hes]
  exact ⟨_, _, rfl⟩

theorem traitDeclaration_completes (hP : Reparses n P) (hms : ts.mapM modifierOf = .ok ms)
    {name : Bytes} {generics : List Bytes} {inherits : List TypeReference}
    {members : List Declaration}
    (hd : (Declaration.trait ms name generics inherits members).isWritable = true)
    (hsize : size (Declaration.trait ms name generics inherits members).pieces ≤ n + 1) :
    Completes (traitDeclaration P ts) s₀
      ([.word .trait, .blank, .name name] ++ (genericsPieces generics
        ++ (typesPieces .colon inherits ++ bodyPieces (linesPieces members))))
      (.trait ms name generics inherits members) := by
  intro mode s qs tail hc hb hn
  simp only [List.append_assoc] at hb
  simp only [Declaration.pieces, size_append, size_word, size_blank, size_name, size_nil] at hsize
  simp only [Declaration.isWritable, Bool.and_eq_true] at hd
  have hbody := hn.markIn.body (linesPieces members)
  have htypes := hbody.types .colon inherits
  unfold traitDeclaration
  refine namedHead_then ts hc hb (htypes.ne (by decide)) fun head s₁ hhead hc hb₁ => ?_
  refine (typesAfter?_yields hP .colon hd.1.2 (by omega)).then hc hb₁
    ⟨⟨hbody.endsType (by decide), hbody.ne (by decide)⟩, hbody.ne (by decide)⟩
    fun es s₂ hes hc hb₂ => ?_
  refine (typeBody?_yields hP hd.2 (by omega)).then hc hb₂ (hn.markIn.ne (by decide))
    fun body s₃ htrees hc hb₃ => ?_
  rw [ensures_pure]
  refine ⟨fun path => ?_, hc, hb₃⟩
  obtain ⟨i, hname, rfl⟩ := hhead.name
  obtain ⟨index, hindex⟩ := bodyOf_builds htrees path
  rw [declarationOf, hname, hhead.modifiers, hms]
  simp only [bind, Except.bind, hindex, typeParametersOf, hhead.generics, hes]
  exact ⟨_, _, rfl⟩

theorem typealiasDeclaration_completes (hP : Reparses n P) (hms : ts.mapM modifierOf = .ok ms)
    {name : Bytes} {generics : List Bytes} {expanded : TypeReference}
    (hd : (Declaration.typealias ms name generics expanded).isWritable = true)
    (hsize : size (Declaration.typealias ms name generics expanded).pieces ≤ n + 1) :
    Completes (typealiasDeclaration P ts) s₀
      ([.word .typealias, .blank, .name name] ++ (genericsPieces generics
        ++ typesPieces .eq [expanded]))
      (.typealias ms name generics expanded) := by
  intro mode s qs tail hc hb hn
  simp only [List.append_assoc] at hb
  simp only [Declaration.pieces, size_append, size_word, size_blank, size_name, size_nil] at hsize
  simp only [Declaration.isWritable, Bool.and_eq_true] at hd
  have hle : size (typesPieces .eq [expanded]) = size expanded.pieces + 1 := rfl
  unfold typealiasDeclaration
  refine namedHead_then ts hc hb ((hn.markIn.types .eq [expanded]).ne (by decide))
    fun head s₁ hhead hc hb₁ => ?_
  refine (typeAfter_yields hP .eq hd.2 (by omega)).then hc hb₁ (hn.markIn.endsType (by decide)) ?_
  rintro _ s₂ ⟨e, rfl, rfl⟩ hc hb₂
  rw [ensures_pure]
  refine ⟨fun path => ?_, hc, hb₂⟩
  obtain ⟨i, hname, rfl⟩ := hhead.name
  simp only [declarationOf, hname, hhead.modifiers, hms, bind, Except.bind, typeParametersOf,
    hhead.generics]
  exact ⟨_, _, rfl⟩

theorem effectDeclaration_completes (hms : ts.mapM modifierOf = .ok ms) {name : Bytes}
    {generics : List Bytes} :
    Completes (effectDeclaration ts) s₀
      ([.word .effect, .blank, .name name] ++ genericsPieces generics)
      (.effect ms name generics) := by
  intro mode s qs tail hc hb hn
  simp only [List.append_assoc] at hb
  unfold effectDeclaration
  refine namedHead_then ts hc hb (hn.markIn.ne (by decide)) fun head s₁ hhead hc hb₁ => ?_
  rw [ensures_pure]
  refine ⟨fun path => ?_, hc, hb₁⟩
  obtain ⟨i, hname, rfl⟩ := hhead.name
  rw [declarationOf, hname, hhead.modifiers, hms]
  simp only [bind, Except.bind, typeParametersOf, hhead.generics]
  exact ⟨_, _, rfl⟩

theorem implDeclaration_completes (hP : Reparses n P) (hms : ts.mapM modifierOf = .ok ms)
    {dataType traitType : TypeReference} {members : List Declaration}
    (hd : (Declaration.impl ms dataType traitType members).isWritable = true)
    (hsize : size (Declaration.impl ms dataType traitType members).pieces ≤ n + 1) :
    Completes (implDeclaration P ts) s₀
      ([.word .impl, .blank] ++ (dataType.pieces
        ++ (typesPieces .colon [traitType] ++ bodyPieces (linesPieces members))))
      (.impl ms dataType traitType members) := by
  intro mode s qs tail hc hb hn
  simp only [List.append_assoc] at hb
  simp only [Declaration.pieces, size_append, size_word, size_blank, size_nil] at hsize
  simp only [Declaration.isWritable, Bool.and_eq_true] at hd
  have hle : size (typesPieces .colon [traitType]) = size traitType.pieces + 1 := rfl
  have hb : s.Before (.word .impl :: (dataType.pieces ++ (typesPieces .colon [traitType] ++
      (bodyPieces (linesPieces members) ++ qs)))) tail := hb.congr rfl
  have hbody := hn.markIn.body (linesPieces members)
  unfold implDeclaration
  refine advance_word_then hc hb fun t s₁ ht hc hb₁ => ?_
  refine (hP.type hd.1.1 (by omega)).then hc hb₁
    ((hbody.types .colon [traitType]).endsType (by decide)) ?_
  rintro _ s₂ ⟨e, rfl, rfl⟩ hc hb₂
  refine (typeAfter_yields hP .colon hd.1.2 (by omega)).then hc hb₂
    (hbody.endsType (by decide)) ?_
  rintro _ s₃ ⟨e', rfl, rfl⟩ hc hb₃
  refine (typeBody?_yields hP hd.2 (by omega)).then hc hb₃ (hn.markIn.ne (by decide))
    fun body s₄ htrees hc hb₄ => ?_
  rw [ensures_pure]
  refine ⟨fun path => ?_, hc, hb₄⟩
  obtain ⟨index, hindex⟩ := bodyOf_builds htrees path
  rw [declarationOf, hms]
  simp only [bind, Except.bind, hindex]
  exact ⟨_, _, rfl⟩

/-- The keyword, type parameters, receiver and name of a function or property. -/
theorem receiverHead_then (ts : List Token) {w : Keyword} {name : Bytes} {generics : List Bytes}
    {rs : List Piece} {receiver : Option TypeReference} (hR : Receives P rs receiver name)
    (hc : Clean s₀ s)
    (hb : s.Before ([.word w, .blank] ++
      ((if generics.isEmpty then [] else genericsPieces generics ++ [.blank]) ++
        (rs ++ ([.name name] ++ qs)))) tail)
    (hn : EndsName (opening qs tail))
    {f : Token → Option (List Identifier) → Option TypeExpr × Option Identifier → Parser β}
    {Q : β → State → Prop}
    (hf : ∀ keyword found r s', HeadOf ts w name generics ⟨ts, keyword, r.2, found⟩ →
      r.1.map typeReference = receiver → Clean s₀ s' → s'.Before qs tail →
        Ensures (f keyword found r) mode s' Q) :
    Ensures (do f (← advance) (← typeParameters?) (← receiverAndName P)) mode s Q := by
  have hb : s.Before (.word w :: (genericsPieces generics ++
      ((rs ++ [.name name]) ++ qs))) tail := by
    refine hb.congr ?_
    cases generics <;> simp [genericsPieces]
  refine advance_word_then hc hb fun keyword s₁ hkeyword hc hb₁ => ?_
  refine (typeParameters?_yields generics).then hc hb₁ (hR.opens qs tail).1
    fun found s₂ hfound hc hb₂ => ?_
  refine hR.yields.then hc hb₂ hn fun r s₃ hr hc hb₃ => ?_
  exact hf keyword found r s₃ ⟨rfl, hkeyword, hr.2, hfound⟩ hr.1 hc hb₃

theorem body?_absent (P : Productions) :
    Yields (body? P) [] (fun k => k ≠ .mark .leftBrace ∧ k ≠ .mark .eq) (· = (none, none)) := by
  intro mode s qs tail hb ⟨hbrace, heq⟩
  have hb : s.Before qs tail := hb
  unfold body? block?
  rw [ensures_bind, ensures_bind, ensures_isAt, ensures_ite, hb.kind_eq,
    if_neg (by simpa using hbrace), ensures_pure]
  refine (valueAfterEq?_absent P).then (.refl s) hb heq ?_
  rintro _ s₁ rfl hc hb₁
  exact ⟨rfl, hc, hb₁⟩

theorem functionDeclaration_completes (hP : Reparses n P) (hms : ts.mapM modifierOf = .ok ms)
    {rs : List Piece} {receiver : Option TypeReference} {name : Bytes} {generics : List Bytes}
    {parameters : List Parameter} {returns : Option TypeReference} {effects : List TypeReference}
    (hR : Receives P rs receiver name) (hparameters : parameters.all Parameter.isWritable = true)
    (hreturns : areWritable returns.toList = true) (heffects : areWritable effects = true)
    (hsize : size (parametersPieces parameters ++ (typesPieces .colon returns.toList
      ++ typesPieces .divide effects)) ≤ n) :
    Completes (functionDeclaration P ts) s₀
      ([.word .fun_, .blank] ++
        ((if generics.isEmpty then [] else genericsPieces generics ++ [.blank])
          ++ (rs ++ ([.name name] ++ (parametersPieces parameters
            ++ (typesPieces .colon returns.toList ++ typesPieces .divide effects))))))
      (.function ms receiver name generics parameters returns effects) := by
  intro mode s qs tail hc hb hn
  simp only [List.append_assoc] at hb
  simp only [size_append] at hsize
  have hend := hn.markIn
  have htypes := hend.types .divide effects
  unfold functionDeclaration
  refine receiverHead_then ts hR hc hb ⟨nofun, nofun, nofun⟩
    fun keyword found r s₁ hhead hr hc hb₁ => ?_
  refine (requiredParameters_yields hP hparameters (by omega)).then hc hb₁ trivial
    fun values s₂ hvalues hc hb₂ => ?_
  refine (typeAfter?_yields hP .colon hreturns (by omega)).then hc hb₂
    ⟨htypes.endsType (by decide), htypes.ne (by decide)⟩ fun type s₃ htype hc hb₃ => ?_
  refine (typesAfter?_yields hP .divide heffects (by omega)).then hc hb₃
    ⟨⟨hend.endsType (by decide), hend.ne (by decide)⟩, hend.ne (by decide)⟩
    fun es s₄ hes hc hb₄ => ?_
  refine (body?_absent P).then hc hb₄ ⟨hend.ne (by decide), hend.ne (by decide)⟩ ?_
  rintro _ s₅ rfl hc hb₅
  rw [ensures_pure]
  refine ⟨fun path => ?_, hc, hb₅⟩
  obtain ⟨i, hname, rfl⟩ := hhead.name
  rw [declarationOf, hname, hms]
  simp only [bind, Except.bind, typeParametersOf, parametersOf, hhead.generics,
    typedParameters_eq hvalues, htype, hes, hr]
  exact ⟨_, _, rfl⟩

/-- No getter or setter follows. -/
theorem accessors_absent (P : Productions) :
    Yields (collect (accessorStep P)) [] EndsDeclaration (· = []) := by
  intro mode s qs tail hb hn
  have hb : s.Before qs tail := hb
  have hstop : Ensures (accessorStep P) mode s fun found s' => found = .stop ∧ s' = s := by
    unfold accessorStep
    rw [ensures_bind, ensures_isAtAny, ensures_ite, hb.kind_eq, if_neg]
    · exact ⟨rfl, rfl⟩
    · intro h
      rcases List.mem_pair.mp (List.contains_iff_mem.mp h) with h | h <;>
        · rw [h] at hn
          rcases hn with hn | hn | hn <;> cases hn
  refine (collect_none hstop).mono ?_
  rintro _ _ ⟨rfl, rfl⟩
  exact ⟨rfl, .refl _, hb⟩

theorem propertyDeclaration_completes (hP : Reparses n P) (hms : ts.mapM modifierOf = .ok ms)
    {writable : Bool} {rs : List Piece} {receiver : Option TypeReference} {name : Bytes}
    {generics : List Bytes} {type : Option TypeReference} {effects : List TypeReference}
    (hR : Receives P rs receiver name) (htype : areWritable type.toList = true)
    (heffects : areWritable effects = true)
    (hsize : size (typesPieces .colon type.toList ++ typesPieces .divide effects) ≤ n) :
    Completes (propertyDeclaration P ts) s₀
      ([.word (if writable then .var else .val), .blank] ++
        ((if generics.isEmpty then [] else genericsPieces generics ++ [.blank])
          ++ (rs ++ ([.name name]
            ++ (typesPieces .colon type.toList ++ typesPieces .divide effects)))))
      (.property ms writable receiver name generics type effects) := by
  intro mode s qs tail hc hb hn
  simp only [List.append_assoc] at hb
  simp only [size_append] at hsize
  have hend := hn.markIn
  have htypes := hend.types .divide effects
  have hnext := htypes.types .colon type.toList
  unfold propertyDeclaration
  refine receiverHead_then ts hR hc hb
    ⟨hnext.ne (by decide), hnext.ne (by decide), hnext.ne (by decide)⟩
    fun keyword found r s₁ hhead hr hc hb₁ => ?_
  refine (typeAfter?_yields hP .colon htype (by omega)).then hc hb₁
    ⟨htypes.endsType (by decide), htypes.ne (by decide)⟩ fun t s₂ ht hc hb₂ => ?_
  refine (typesAfter?_yields hP .divide heffects (by omega)).then hc hb₂
    ⟨⟨hend.endsType (by decide), hend.ne (by decide)⟩, hend.ne (by decide)⟩
    fun es s₃ hes hc hb₃ => ?_
  refine (valueAfterEq?_absent P).then hc hb₃ (hend.ne (by decide)) fun value s₄ _ hc hb₄ => ?_
  refine (accessors_absent P).then hc hb₄ hn fun accessors s₅ _ hc hb₅ => ?_
  rw [ensures_pure]
  refine ⟨fun path => ?_, hc, hb₅⟩
  obtain ⟨i, hname, rfl⟩ := hhead.name
  have hwritable : (keyword.kind == .keyword .var) = writable := by
    rw [hhead.keyword]
    cases writable <;> rfl
  rw [declarationOf, hname, hms]
  simp only [bind, Except.bind, typeParametersOf, hhead.generics, ht, hes, hr, hwritable]
  exact ⟨_, _, rfl⟩

/-! ## One level of the grammar -/

/-- Reads the modifiers of a declaration, up to its first other word. -/
theorem modifiers_then {w : Keyword} (hb : s.Before (modifierPieces ms ++ (.word w :: qs)) tail)
    (hw : (Kind.keyword w).isDeclarationWord = true ∨
      w = .impl ∧ (opening qs tail).startsDeclaration = false)
    {f : List Token → Kind → Parser β} {Q : β → State → Prop}
    (hf : ∀ ts s', ts.mapM modifierOf = .ok ms → Clean s s' → s'.Before (.word w :: qs) tail →
      Ensures (f ts (.keyword w)) mode s' Q) :
    Ensures (do f (← modifiers) (← kind)) mode s Q := by
  rw [ensures_bind]
  refine (modifiers_yields ms hb hw).mono ?_
  rintro ts s₁ ⟨hts, hc, hb₁⟩
  rw [ensures_bind, ensures_kind, hb₁.kind_eq, opening_word]
  exact hf ts s₁ (mapM_modifierOf hts) hc hb₁

theorem Completes.found {p : Parser Yurin.Declaration} {ps : List Piece} {d : Declaration}
    (h : Completes p s₀ ps d) (hc : Clean s₀ s) {rs : List Piece} (hb : s.Before rs tail)
    (heq : significant rs = significant (ps ++ qs)) (hn : EndsDeclaration (opening qs tail)) :
    Ensures (do return some (← p)) mode s fun found s' =>
      (∃ tree, found = some tree ∧ Builds tree d) ∧ Clean s₀ s' ∧ s'.Before qs tail := by
  rw [ensures_bind]
  refine (h hc (hb.congr heq) hn).mono ?_
  rintro tree s' ⟨hbuilds, hc', hb'⟩
  exact ⟨⟨tree, rfl, hbuilds⟩, hc', hb'⟩

theorem declaration_yields (hP : Reparses n P) {d : Declaration} (hd : d.isWritable = true)
    (hsize : size d.pieces ≤ n + 1) :
    Yields (declaration P) d.pieces EndsDeclaration
      fun found => ∃ tree, found = some tree ∧ Builds tree d := by
  intro mode s qs tail hb hn
  unfold declaration
  rw [ensures_bind, ensures_current]
  cases d with
  | data ms flavor name generics parameters bindings members =>
    simp only [Declaration.pieces, List.append_assoc] at hb
    cases flavor with
    | none =>
      refine modifiers_then hb (.inl rfl) fun ts s₁ hms hc hb₁ => ?_
      exact (dataDeclaration_completes hP hms none hd hsize).found hc hb₁ (by simp) hn
    | value =>
      refine modifiers_then hb (.inl rfl) fun ts s₁ hms hc hb₁ => ?_
      rw [ensures_bind, ensures_nextKind, hb₁.next_kind rfl, ensures_ite, if_pos (by rfl)]
      refine advance_word_then hc hb₁ fun word s₂ hword hc hb₂ => ?_
      have hflavor : flavorOf (some word) = .value := by simp [flavorOf, hword]
      rw [← hflavor] at hd hsize ⊢
      exact (dataDeclaration_completes hP hms (some word) hd hsize).found hc hb₂ (by simp) hn
    | reference =>
      refine modifiers_then hb (.inl rfl) fun ts s₁ hms hc hb₁ => ?_
      refine advance_word_then hc hb₁ fun word s₂ hword hc hb₂ => ?_
      have hflavor : flavorOf (some word) = .reference := by simp [flavorOf, hword]
      rw [← hflavor] at hd hsize ⊢
      rw [ensures_bind, ensures_isAt, ensures_ite, hb₂.kind_eq, if_pos (by rfl)]
      exact (dataDeclaration_completes hP hms (some word) hd hsize).found hc hb₂ (by simp) hn
  | trait ms name generics inherits members =>
    simp only [Declaration.pieces, List.append_assoc] at hb
    refine modifiers_then hb (.inl rfl) fun ts s₁ hms hc hb₁ => ?_
    exact (traitDeclaration_completes hP hms hd hsize).found hc hb₁ (by simp) hn
  | typealias ms name generics expanded =>
    simp only [Declaration.pieces, List.append_assoc] at hb
    refine modifiers_then hb (.inl rfl) fun ts s₁ hms hc hb₁ => ?_
    exact (typealiasDeclaration_completes hP hms hd hsize).found hc hb₁ (by simp) hn
  | effect ms name generics =>
    simp only [Declaration.pieces, List.append_assoc] at hb
    refine modifiers_then hb (.inl rfl) fun ts s₁ hms hc hb₁ => ?_
    exact (effectDeclaration_completes hms).found hc hb₁ (by simp) hn
  | impl ms dataType traitType members =>
    simp only [Declaration.pieces, List.append_assoc] at hb
    have hw : dataType.isWritable = true := by
      simp only [Declaration.isWritable, Bool.and_eq_true] at hd
      exact hd.1.1
    -- the word is no modifier here, because a type follows
    have hnext : ∀ k ∈ [.identifier, .keyword .exist, .keyword .dynamic, .keyword .nothing],
        Kind.startsDeclaration k = false := by decide
    refine modifiers_then hb (.inr ⟨rfl, hnext _ (opening_type hw _ _)⟩) fun ts s₁ hms hc hb₁ => ?_
    exact (implDeclaration_completes hP hms hd hsize).found hc hb₁ (by simp) hn
  | function ms receiver name generics parameters returns effects =>
    simp only [Declaration.pieces, List.append_assoc] at hb
    simp only [Declaration.pieces, size_append, size_word, size_blank, size_name, size_nil] at hsize
    simp only [Declaration.isWritable, Bool.and_eq_true] at hd
    obtain ⟨⟨⟨⟨⟨hreceiver, -⟩, -⟩, hparameters⟩, hreturns⟩, heffects⟩ := hd
    have hR := receiverPieces_receives hP hreceiver (by omega) name
    have hle : size (parametersPieces parameters ++ (typesPieces .colon returns.toList ++
        typesPieces .divide effects)) ≤ n := by
      rw [size_append, size_append]
      omega
    refine modifiers_then hb (.inl rfl) fun ts s₁ hms hc hb₁ => ?_
    exact (functionDeclaration_completes hP hms hR hparameters hreturns heffects hle).found hc hb₁
      (by simp) hn
  | property ms writable receiver name generics type effects =>
    simp only [Declaration.pieces, List.append_assoc] at hb
    simp only [Declaration.pieces, size_append, size_word, size_blank, size_name, size_nil] at hsize
    simp only [Declaration.isWritable, Bool.and_eq_true] at hd
    obtain ⟨⟨⟨⟨hreceiver, -⟩, -⟩, htype⟩, heffects⟩ := hd
    have hR := receiverPieces_receives hP hreceiver (by omega) name
    have hle : size (typesPieces .colon type.toList ++ typesPieces .divide effects) ≤ n := by
      rw [size_append]
      omega
    cases writable with
    | true =>
      refine modifiers_then hb (.inl rfl) fun ts s₁ hms hc hb₁ => ?_
      exact (propertyDeclaration_completes hP hms hR htype heffects hle).found hc hb₁ (by simp) hn
    | false =>
      refine modifiers_then (w := .val) hb (.inl rfl) fun ts s₁ hms hc hb₁ => ?_
      rw [ensures_bind, ensures_nextKind, hb₁.next_kind rfl, ensures_ite, if_neg]
      · exact (propertyDeclaration_completes hP hms hR htype heffects hle).found hc hb₁ (by simp) hn
      · cases generics <;> cases receiver <;> nofun

/-! ## The grammar -/

theorem grammar_reparses (hP : Reparses n P) : Reparses (n + 1) (grammar P) where
  type := typeExpr_reparses hP.type
  receiver _ ht hsize := typeExpr_parenthesized hP.type ht (Nat.le_of_lt_succ hsize)
  declaration _ hd hsize := declaration_yields hP hd hsize

/-- **The grammar finds every type and declaration** that has no more tokens than it is deep. -/
theorem grammarUpTo_reparses (depth : Nat) : Reparses depth (grammarUpTo depth) := by
  induction depth with
  | zero =>
    -- every type and declaration has a token
    exact
      { type := fun t ht hsize => absurd (size_type_pos ht) (by omega)
        receiver := fun t _ hsize => absurd hsize (by omega)
        declaration := fun d _ hsize => absurd (size_declaration_pos d) (by omega) }
  | succ depth ih => exact grammar_reparses ih

end Kinds

end Yurin.Skeleton
