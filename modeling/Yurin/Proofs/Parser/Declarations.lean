import Yurin.Parser.Declaration
import Yurin.Proofs.Parser.Expressions

/-!
# Declarations and statements are read soundly

`declaration_sound` and `block_sound`: over productions that are sound, the parsers of declarations
and of blocks are sound with one more token to go.

A declaration is read in the order in which its node lists its parts: the modifiers before it, its
head, and then what belongs to its kind. The lemmas about one kind of declaration therefore begin
where the modifiers have been read.
-/

namespace Yurin.Parser

variable {n : Nat} {P : Productions} {mode : LineMode} {s s₀ : State}

-- the lemmas below compare the leaves of the node that is made with what has been read
attribute [local simp] Declaration.node Accessor.node Statement.node Block.node Label.leaf?

/-! ## Parts of declarations -/

theorem modifierStep_sound : SoundStep n modifierStep (fun t => [.modifier t]) fun _ => True := by
  intro mode s hs
  unfold modifierStep
  rw [ensures_bind, ensures_kind, ensures_ite]
  split
  · exact SoundStep.stop_of_reads (.refl s)
  · rename_i hk
    rw [ensures_bind, ensures_nextKind, ensures_ite]
    split
    · exact SoundStep.stop_of_reads (.refl s)
    · exact advance_modifier_then (.refl s) hs (by simpa using hk)
        fun t s₁ hr _ hlt => ⟨hr, fun _ => hlt, nofun⟩

theorem modifiers_sound : Sound n modifiers fun ts => ts.map .modifier := by
  have h := collect_sound (modifierStep_sound (n := n))
  simp only [← List.map_eq_flatMap] at h
  exact h

theorem typeParameterStep_sound :
    SoundStep n typeParameterStep (fun i => [.name i.token]) fun _ => True := by
  intro mode s hs
  unfold typeParameterStep
  rw [ensures_bind, ensures_isAtAny, ensures_ite]
  split
  · exact SoundStep.stop_of_reads (.refl s)
  · refine expectIdentifier_sound.then (.refl s) hs fun name s₁ hr hs₁ => ?_
    cases name with
    | none => exact SoundStep.stop_of_reads hr
    | some name => exact comma_step hr hs₁

theorem typeParameters_sound :
    SoundFrom (n + 1) (· = .mark .leftAngle) typeParameters nameLeaves := by
  refine .of_advance (fun _ hk => hk ▸ Kind.plain_mark _) fun _ _ mode s hs => ?_
  refine (collect_sound typeParameterStep_sound).then (.refl s) hs fun names s₁ hr hs₁ => ?_
  refine (expectUnit_sound (Kind.plain_mark .rightAngle)).then hr hs₁ fun _ s₂ hr _ => ?_
  rw [ensures_pure, nameLeaves, List.map_eq_flatMap]
  simpa using hr

/-- The leaves of type parameters that may be absent. -/
def genericsLeaves (generics : Option (List Identifier)) : List Leaf :=
  nameLeaves (generics.getD [])

@[simp] theorem leaves_typeParametersNode? (generics : Option (List Identifier)) :
    leaves (typeParametersNode? generics) = genericsLeaves generics := by
  cases generics with
  | none => rfl
  | some names =>
    rw [typeParametersNode?, leaves_cons, leaves_map, leaves_nil, genericsLeaves, nameLeaves,
      List.map_eq_flatMap]
    simp

theorem typeParameters?_sound : Sound n typeParameters? genericsLeaves :=
  typeParameters_sound.weaken.whenAt (fun _ => rfl) (pure_sound rfl)

theorem typeAfter?_sound (hP : P.Sound n) (mark : Mark) :
    Sound n (typeAfter? P mark) typeLeaves := by
  intro mode s hs
  unfold typeAfter?
  refine (accept_sound (Kind.plain_mark mark)).then (.refl s) hs fun found s₁ hr hs₁ => ?_
  rw [ensures_ite]
  split
  · exact hP.type.last hr hs₁
  · exact hr

theorem typeAfter_sound (hP : P.Sound n) (mark : Mark) : Sound n (typeAfter P mark) typeLeaves := by
  intro mode s hs
  unfold typeAfter
  refine (expect_sound (Kind.plain_mark mark)).then (.refl s) hs fun found s₁ hr hs₁ => ?_
  rw [ensures_ite]
  split
  · exact hP.type.last hr hs₁
  · exact hr

theorem typesAfter?_sound (hP : P.Sound n) (mark : Mark) :
    Sound n (typesAfter? P mark) fun types => leaves (typeNodes types) := by
  intro mode s hs
  unfold typesAfter?
  refine (accept_sound (Kind.plain_mark mark)).then (.refl s) hs fun found s₁ hr hs₁ => ?_
  rw [ensures_ite]
  split
  · exact (typeList_sound hP.type).last hr hs₁
  · exact hr

theorem valueAfterEq?_sound (hP : P.Sound n) :
    Sound n (valueAfterEq? P) fun e => leaves (exprNode? e) := by
  intro mode s hs
  unfold valueAfterEq?
  refine (accept_sound (Kind.plain_mark .eq)).then (.refl s) hs fun found s₁ hr hs₁ => ?_
  rw [ensures_ite]
  split
  · exact hP.expression.then hr hs₁ fun e s₂ hr _ => hr
  · exact hr

/-! ## Value parameters -/

theorem valueParameter_ensures (hP : P.Sound n) (hs : Ready n s)
    (hk : s.current.token.kind = .identifier) :
    Ensures (valueParameter P) mode s fun p s' => Reads s (leaves [p.node]) s' := by
  unfold valueParameter
  refine advance_name_then (.refl s) hs hk fun t s₁ hr hs₁ _ _ => ?_
  refine (typeAfter_sound hP .colon).then hr hs₁ fun type s₂ hr hs₂ => ?_
  refine (valueAfterEq?_sound hP).then hr hs₂ fun value s₃ hr _ => ?_
  rw [ensures_pure, Parameter.node, leaves_cons, List.cons_append, leaves_cons_node, leaves_append]
  simpa using hr

/-- What stands in the place of a value parameter is dropped while the parser recovers. -/
theorem badParameter_ensures (hs : s.Closed) :
    Ensures badParameter mode s fun found s' =>
      found.item = none ∧ Reads s [] s' ∧ (found.more = true → s.consumed < s'.consumed) := by
  unfold badParameter
  have hr := s.reads_complain (.mismatched .parameter)
  obtain ⟨hr₁, hrec⟩ := State.reads_skipUntil endsParameter _ (hr.closed hs) (Nat.lt_succ_self _)
    (s.complain_recovering _)
  have hr := hr.trans hr₁
  rw [ensures_bind, ensures_complain, ensures_bind, ensures_skipUntil]
  generalize State.skipUntil endsParameter _ (s.complain (.mismatched .parameter)) = s' at hr hrec ⊢
  rw [ensures_bind, ensures_isAt, ensures_ite]
  split
  · rename_i hk
    have hne : s'.current.token.kind ≠ .eof := by simp [beq_iff_eq.mp hk]
    obtain ⟨hr₂, hlt, -⟩ := State.reads_next (hr.closed hs) hne hrec
    rw [ensures_bind, ensures_skip, ensures_pure]
    exact ⟨rfl, hr.trans hr₂, fun _ => Nat.lt_of_le_of_lt hr.consumed_le hlt⟩
  · exact ⟨rfl, hr, nofun⟩

theorem parameterStep_sound (hP : P.Sound n) :
    SoundStep n (parameterStep P) (fun p => leaves [p.node]) fun _ => True := by
  intro mode s hs
  unfold parameterStep
  rw [ensures_bind, ensures_isAtAny, ensures_ite]
  split
  · exact SoundStep.stop_of_reads (.refl s)
  rw [ensures_bind, ensures_isAt, ensures_ite]
  split
  · rename_i hk
    rw [ensures_bind]
    refine (valueParameter_ensures hP hs (by simpa using hk)).mono fun p s₁ hr => ?_
    exact comma_step hr (hs.after hr)
  · refine (badParameter_ensures hs.closed).mono fun found s₁ ⟨hitem, hr, hlt⟩ => ?_
    rw [hitem]
    exact ⟨hr, hlt, fun _ => trivial⟩

theorem valueParameters_sound (hP : P.Sound n) :
    SoundFrom (n + 1) (· = .mark .leftParen) (valueParameters P) fun ps =>
      leaves (parameterNodes ps) := by
  refine .of_advance (fun _ hk => hk ▸ Kind.plain_mark _) fun _ _ mode s hs => ?_
  refine (collect_sound (parameterStep_sound hP)).inBrackets.then (.refl s) hs
    fun ps s₁ hr hs₁ => ?_
  refine (expectUnit_sound (Kind.plain_mark .rightParen)).then hr hs₁ fun _ s₂ hr _ => ?_
  rw [ensures_pure]
  simpa [parameterNodes_eq, leaves_map] using hr

theorem leaves_parametersNode? (ps : List Parameter) :
    leaves (parametersNode? (some ps)) = leaves (parameterNodes ps) := by
  simp [parametersNode?]

theorem valueParameters?_sound (hP : P.Sound n) :
    Sound n (valueParameters? P) fun ps => leaves (parametersNode? ps) :=
  (valueParameters_sound hP).weaken.whenAt leaves_parametersNode? (pure_sound rfl)

theorem requiredParameters_sound (hP : P.Sound n) :
    Sound n (requiredParameters P) fun ps => leaves (parametersNode? ps) :=
  (valueParameters_sound hP).weaken.whenAt leaves_parametersNode?
    fun _ s hs => (complain_sound _).then (.refl s) hs fun _ _ hr _ => hr

/-! ## Bodies -/

theorem typeBody_sound (hP : P.Sound n) :
    SoundFrom (n + 1) (· = .mark .leftBrace) (typeBody P)
      fun ds => leaves (declarationNodes ds) := by
  simp only [declarationNodes_eq, leaves_map]
  exact .of_advance (fun _ hk => hk ▸ Kind.plain_mark _)
    fun _ _ => braced_sound .member endsMember hP.declaration

theorem typeBody?_sound (hP : P.Sound n) :
    Sound n (typeBody? P) fun ds => leaves (bodyNode? ds) :=
  (typeBody_sound hP).weaken.whenAt (fun ds => by simp [bodyNode?]) (pure_sound rfl)

theorem block?_sound (hP : P.Sound n) : Sound n (block? P) fun b => leaves (blockNode? b) :=
  hP.block.whenAt (fun _ => rfl) (pure_sound rfl)

theorem body?_sound (hP : P.Sound n) :
    Sound n (body? P) fun b => leaves (blockNode? b.1) ++ leaves (exprNode? b.2) := by
  intro mode s hs
  unfold body?
  refine (block?_sound hP).then (.refl s) hs fun found s₁ hr hs₁ => ?_
  cases found with
  | none => exact (valueAfterEq?_sound hP).then hr hs₁ fun e s₂ hr _ => hr
  | some b =>
    rw [ensures_pure]
    simpa [exprNode?] using hr

/-! ## Kinds of declarations

In these lemmas the parser has read modifiers since `s₀` and stands on the keyword. -/

/-- The leaves of a head whose name comes before its type parameters. -/
def headLeaves (head : Head) : List Leaf :=
  head.modifiers.map .modifier ++ nameLeaves head.name.toList ++ genericsLeaves head.typeParameters

theorem namedHead_then {β : Type} {mods : List Token} (hr : Reads s₀ (mods.map .modifier) s)
    (hs : Ready (n + 1) s) (hk : Kind.Plain s.current.token.kind) {f : Head → Parser β}
    {Q : β → State → Prop}
    (hf : ∀ head s', Reads s₀ (headLeaves head) s' → Ready n s' → Ensures (f head) mode s' Q) :
    Ensures (namedHead mods >>= f) mode s Q := by
  rw [ensures_bind]
  unfold namedHead
  refine advance_plain_then hr hs hk fun s₁ hr hs₁ _ _ => ?_
  refine expectIdentifier_sound.then hr hs₁ fun name s₂ hr hs₂ => ?_
  refine typeParameters?_sound.then hr hs₂ fun generics s₃ hr hs₃ => ?_
  exact hf _ s₃ hr hs₃

theorem dataDeclaration_ensures (hP : P.Sound n) {mods : List Token} (flavor : Option Token)
    (hr : Reads s₀ (mods.map .modifier) s) (hs : Ready (n + 1) s)
    (hk : Kind.Plain s.current.token.kind) :
    Ensures (dataDeclaration P mods flavor) mode s fun d s' => Reads s₀ (leaves [d.node]) s' := by
  unfold dataDeclaration
  refine namedHead_then hr hs hk fun head s₁ hr hs₁ => ?_
  refine (valueParameters?_sound hP).then hr hs₁ fun ps s₂ hr hs₂ => ?_
  refine (typesAfter?_sound hP .colon).then hr hs₂ fun types s₃ hr hs₃ => ?_
  refine (typeBody?_sound hP).then hr hs₃ fun members s₄ hr _ => ?_
  rw [ensures_pure]
  simpa [headLeaves, modifierNodes_leaves] using hr

theorem traitDeclaration_ensures (hP : P.Sound n) {mods : List Token}
    (hr : Reads s₀ (mods.map .modifier) s) (hs : Ready (n + 1) s)
    (hk : Kind.Plain s.current.token.kind) :
    Ensures (traitDeclaration P mods) mode s fun d s' => Reads s₀ (leaves [d.node]) s' := by
  unfold traitDeclaration
  refine namedHead_then hr hs hk fun head s₁ hr hs₁ => ?_
  refine (typesAfter?_sound hP .colon).then hr hs₁ fun types s₂ hr hs₂ => ?_
  refine (typeBody?_sound hP).then hr hs₂ fun members s₃ hr _ => ?_
  rw [ensures_pure]
  simpa [headLeaves, modifierNodes_leaves] using hr

theorem typealiasDeclaration_ensures (hP : P.Sound n) {mods : List Token}
    (hr : Reads s₀ (mods.map .modifier) s) (hs : Ready (n + 1) s)
    (hk : Kind.Plain s.current.token.kind) :
    Ensures (typealiasDeclaration P mods) mode s fun d s' => Reads s₀ (leaves [d.node]) s' := by
  unfold typealiasDeclaration
  refine namedHead_then hr hs hk fun head s₁ hr hs₁ => ?_
  refine (typeAfter_sound hP .eq).then hr hs₁ fun type s₂ hr _ => ?_
  rw [ensures_pure]
  simpa [headLeaves, modifierNodes_leaves] using hr

theorem effectDeclaration_ensures {mods : List Token} (hr : Reads s₀ (mods.map .modifier) s)
    (hs : Ready (n + 1) s) (hk : Kind.Plain s.current.token.kind) :
    Ensures (effectDeclaration mods) mode s fun d s' => Reads s₀ (leaves [d.node]) s' := by
  unfold effectDeclaration
  refine namedHead_then hr hs hk fun head s₁ hr _ => ?_
  rw [ensures_pure]
  simpa [headLeaves, modifierNodes_leaves] using hr

theorem implDeclaration_ensures (hP : P.Sound n) {mods : List Token}
    (hr : Reads s₀ (mods.map .modifier) s) (hs : Ready (n + 1) s)
    (hk : Kind.Plain s.current.token.kind) :
    Ensures (implDeclaration P mods) mode s fun d s' => Reads s₀ (leaves [d.node]) s' := by
  unfold implDeclaration
  refine advance_plain_then hr hs hk fun s₁ hr hs₁ _ _ => ?_
  refine hP.type.then hr hs₁ fun data s₂ hr hs₂ => ?_
  refine (typeAfter_sound hP .colon).then hr hs₂ fun trait s₃ hr hs₃ => ?_
  refine (typeBody?_sound hP).then hr hs₃ fun members s₄ hr _ => ?_
  rw [ensures_pure]
  simpa [modifierNodes_leaves] using hr

/-! ## Receivers -/

/-- The leaves of a receiver with the name after it. -/
def receiverLeaves (found : Option TypeExpr × Option Identifier) : List Leaf :=
  typeLeaves found.1 ++ nameLeaves found.2.toList

theorem explicitReceiver_sound (hP : P.Sound n) :
    Sound n (explicitReceiver P) receiverLeaves := by
  intro mode s hs
  unfold explicitReceiver
  refine hP.type.then (.refl s) hs fun receiver s₁ hr hs₁ => ?_
  rw [ensures_bind, ensures_isAtAny, ensures_ite]
  split
  · rename_i hk
    refine advance_plain_then hr (hs₁.mono (Nat.le_succ n))
      (Kind.plain_of_contains_mark [.dot, .safeDot] hk) fun s₂ hr hs₂ _ _ => ?_
    exact expectIdentifier_sound.then hr hs₂ fun name s₃ hr _ => hr
  · exact (expectUnit_sound (Kind.plain_mark .dot)).then hr hs₁ fun _ s₂ hr _ => hr

theorem receiverDot_sound : Sound n receiverDot fun _ => [] := by
  intro mode s hs
  unfold receiverDot
  refine (accept_sound (Kind.plain_mark .safeDot)).then (.refl s) hs fun found s₁ hr hs₁ => ?_
  rw [ensures_ite]
  split
  · exact hr
  · refine (accept_sound (Kind.plain_mark .nullable)).then hr hs₁ fun nullable s₂ hr hs₂ => ?_
    exact (expectUnit_sound (Kind.plain_mark .dot)).then hr hs₂ fun _ s₃ hr _ => hr

theorem genericReceiver_ensures (hP : P.Sound n) {parts : List Identifier}
    (hr : Reads s₀ (nameLeaves parts) s) (hs : Ready n s)
    (hk : s.current.token.kind = .mark .leftAngle) :
    Ensures (genericReceiver P parts) mode s
      fun found s' => Reads s₀ (receiverLeaves found) s' := by
  unfold genericReceiver
  rw [ensures_bind]
  refine (typeArguments_sound hP.type (hs.mono (Nat.le_succ n)) hk).mono fun types s₁ ⟨hr₁, _⟩ => ?_
  refine receiverDot_sound.then (hr.trans hr₁) (hs.after hr₁) fun nullable s₂ hr hs₂ => ?_
  refine expectIdentifier_sound.then hr hs₂ fun name s₃ hr _ => ?_
  rw [ensures_pure, receiverLeaves, typeLeaves, typeNode?, leaves_regular]
  simpa using hr

/-- The parts of a dotted name are those before the last, and the last. -/
theorem nameLeaves_dropLast (parts : List Identifier) :
    nameLeaves parts.dropLast ++ nameLeaves parts.getLast?.toList = nameLeaves parts := by
  rcases List.eq_nil_or_concat parts with rfl | ⟨before, last, rfl⟩
  · rfl
  · simp [nameLeaves]

theorem receiverAndName_sound (hP : P.Sound n) :
    Sound n (receiverAndName P) receiverLeaves := by
  intro mode s hs
  unfold receiverAndName
  rw [ensures_bind, ensures_isAtAny, ensures_ite]
  split
  · exact explicitReceiver_sound hP hs
  refine dottedName_sound.then (.refl s) hs fun name s₁ hr hs₁ => ?_
  cases name with
  | none => exact hr
  | some name =>
    obtain ⟨parts⟩ := name
    rw [Option.elim_some, List.nil_append] at hr
    rw [ensures_bind, ensures_isAt, ensures_ite]
    split
    · rename_i hk
      exact genericReceiver_ensures hP hr hs₁ (by simpa using hk)
    rw [ensures_bind, ensures_isAt, ensures_bind, ensures_nextKind, ensures_ite]
    split
    · rename_i hk
      simp only [Bool.and_eq_true, beq_iff_eq] at hk
      refine advance_plain_then hr (hs₁.mono (Nat.le_succ n)) (hk.1 ▸ Kind.plain_mark _)
        fun s₂ hr hs₂ _ hcur => ?_
      refine advance_name_then hr hs₂ (hcur ▸ hk.2) fun t s₃ hr _ _ _ => ?_
      rw [ensures_pure, receiverLeaves, typeLeaves, typeNode?, leaves_regular]
      simpa [typeNodes] using hr
    · rw [← nameLeaves_dropLast] at hr
      split
      · rename_i hnil
        rw [hnil] at hr
        exact hr
      · rw [ensures_pure, receiverLeaves, typeLeaves, typeNode?, leaves_regular]
        simpa [typeNodes] using hr

/-! ## Functions and properties -/

theorem functionDeclaration_ensures (hP : P.Sound n) {mods : List Token}
    (hr : Reads s₀ (mods.map .modifier) s) (hs : Ready (n + 1) s)
    (hk : Kind.Plain s.current.token.kind) :
    Ensures (functionDeclaration P mods) mode s fun d s' => Reads s₀ (leaves [d.node]) s' := by
  unfold functionDeclaration
  refine advance_plain_then hr hs hk fun s₁ hr hs₁ _ _ => ?_
  refine typeParameters?_sound.then hr hs₁ fun generics s₂ hr hs₂ => ?_
  refine (receiverAndName_sound hP).then hr hs₂ fun ⟨receiver, name⟩ s₃ hr hs₃ => ?_
  refine (requiredParameters_sound hP).then hr hs₃ fun ps s₄ hr hs₄ => ?_
  refine (typeAfter?_sound hP .colon).then hr hs₄ fun type s₅ hr hs₅ => ?_
  refine (typesAfter?_sound hP .divide).then hr hs₅ fun effects s₆ hr hs₆ => ?_
  refine (body?_sound hP).then hr hs₆ fun ⟨block, value⟩ s₇ hr _ => ?_
  rw [ensures_pure]
  simpa [receiverLeaves, modifierNodes_leaves] using hr

theorem setterParameter?_sound (keyword : Token) :
    Sound n (setterParameter? keyword) fun i => nameLeaves i.toList := by
  intro mode s hs
  unfold setterParameter?
  rw [ensures_bind, ensures_isAt, ensures_ite]
  split
  · rename_i hk
    simp only [Bool.and_eq_true, beq_iff_eq] at hk
    exact advance_name_then (.refl s) hs hk.2 fun t s₁ hr _ _ _ => hr
  · exact .refl s

theorem accessorParameter?_sound (keyword : Token) :
    Sound n (accessorParameter? keyword) fun i => nameLeaves i.toList := by
  intro mode s hs
  unfold accessorParameter?
  refine (accept_sound (Kind.plain_mark .leftParen)).then (.refl s) hs fun found s₁ hr hs₁ => ?_
  rw [ensures_ite]
  split
  · refine (setterParameter?_sound keyword).then hr hs₁ fun i s₂ hr hs₂ => ?_
    exact (expectUnit_sound (Kind.plain_mark .rightParen)).then hr hs₂ fun _ s₃ hr _ => by
      simpa using hr
  · exact hr

theorem accessor_sound (hP : P.Sound n) :
    SoundFrom (n + 1) Kind.Plain (accessor P) fun a => leaves [a.node] := by
  refine .of_advance (fun _ hk => hk) fun keyword _ mode s hs => ?_
  refine (accessorParameter?_sound keyword).then (.refl s) hs fun i s₁ hr hs₁ => ?_
  refine (body?_sound hP).then hr hs₁ fun ⟨block, value⟩ s₂ hr _ => ?_
  rw [ensures_pure]
  simpa using hr

theorem accessorStep_sound (hP : P.Sound n) :
    SoundStep n (accessorStep P) (fun a => leaves [a.node]) fun _ => True := by
  intro mode s hs
  unfold accessorStep
  rw [ensures_bind, ensures_isAtAny, ensures_ite]
  split
  · rename_i hk
    rw [ensures_bind]
    refine (accessor_sound hP (hs.mono (Nat.le_succ n))
      (Kind.plain_of_contains [.get, .set] hk)).mono fun a s₁ ⟨hr, hlt⟩ => ?_
    rw [ensures_pure]
    exact ⟨by simpa [Step.found] using hr, fun _ => hlt, nofun⟩
  · exact SoundStep.stop_of_reads (.refl s)

theorem propertyDeclaration_ensures (hP : P.Sound n) {mods : List Token}
    (hr : Reads s₀ (mods.map .modifier) s) (hs : Ready (n + 1) s)
    (hk : Kind.Plain s.current.token.kind) :
    Ensures (propertyDeclaration P mods) mode s fun d s' => Reads s₀ (leaves [d.node]) s' := by
  unfold propertyDeclaration
  refine advance_plain_then hr hs hk fun s₁ hr hs₁ _ _ => ?_
  refine typeParameters?_sound.then hr hs₁ fun generics s₂ hr hs₂ => ?_
  refine (receiverAndName_sound hP).then hr hs₂ fun ⟨receiver, name⟩ s₃ hr hs₃ => ?_
  refine (typeAfter?_sound hP .colon).then hr hs₃ fun type s₄ hr hs₄ => ?_
  refine (typesAfter?_sound hP .divide).then hr hs₄ fun effects s₅ hr hs₅ => ?_
  refine (valueAfterEq?_sound hP).then hr hs₅ fun value s₆ hr hs₆ => ?_
  refine (collect_sound (accessorStep_sound hP)).then hr hs₆ fun accessors s₇ hr _ => ?_
  rw [ensures_pure]
  simpa [receiverLeaves, modifierNodes_leaves, accessorNodes_eq, leaves_map] using hr

/-- Modifiers without a declaration after them are not kept. -/
theorem Reads.drop_modifiers {mods : List Token} (hr : Reads s₀ (mods.map .modifier) s) :
    Reads s₀ [] s := by
  refine hr.drop (List.nil_sublist _) ?_
  simp [namesOf, List.filterMap_map, Function.comp_def, Leaf.name?]

/-- **Declarations are read soundly**, with one more token to go than the phrases inside them. -/
theorem declaration_sound (hP : P.Sound n) :
    Sound (n + 1) (declaration P) fun d => d.toList.flatMap fun d => leaves [d.node] := by
  intro mode s hs
  unfold declaration
  rw [ensures_bind, ensures_current]
  refine modifiers_sound.then (.refl s) hs fun mods s₁ hr hs₁ => ?_
  rw [List.nil_append] at hr
  -- every kind of declaration keeps what it reads as its node
  have keep {p : Parser Declaration} {s' : State}
      (hp : Ensures p mode s' fun d s'' => Reads s (leaves [d.node]) s'') :
      Ensures (do return some (← p)) mode s' fun d s'' =>
        Reads s (d.toList.flatMap fun d => leaves [d.node]) s'' := by
    rw [ensures_bind]
    exact hp.mono fun d s'' h => by rw [ensures_pure]; simpa using h
  rw [ensures_bind, ensures_kind]
  split
  · rename_i hk
    exact keep (dataDeclaration_ensures hP none hr hs₁ (hk ▸ Kind.plain_keyword _))
  · rename_i hk
    rw [ensures_bind, ensures_nextKind, ensures_ite]
    split
    · rename_i hnext
      refine advance_plain_then hr hs₁ (hk ▸ Kind.plain_keyword _) fun s₂ hr hs₂ _ hcur => ?_
      have hk₂ : s₂.current.token.kind = .keyword .data := by rw [hcur]; simpa using hnext
      exact keep (dataDeclaration_ensures hP _ hr (hs₂.mono (Nat.le_succ n))
        (hk₂ ▸ Kind.plain_keyword _))
    · exact keep (propertyDeclaration_ensures hP hr hs₁ (hk ▸ Kind.plain_keyword _))
  · rename_i hk
    refine advance_plain_then hr hs₁ (hk ▸ Kind.plain_keyword _) fun s₂ hr hs₂ _ _ => ?_
    rw [ensures_bind, ensures_isAt, ensures_ite]
    split
    · rename_i hk₂
      rw [beq_iff_eq] at hk₂
      exact keep (dataDeclaration_ensures hP _ hr (hs₂.mono (Nat.le_succ n))
        (hk₂ ▸ Kind.plain_keyword _))
    · exact (complain_sound (n := n) _).then hr.drop_modifiers hs₂ fun _ s₃ hr _ => hr
  · rename_i hk
    exact keep (propertyDeclaration_ensures hP hr hs₁ (hk ▸ Kind.plain_keyword _))
  · rename_i hk
    exact keep (traitDeclaration_ensures hP hr hs₁ (hk ▸ Kind.plain_keyword _))
  · rename_i hk
    exact keep (typealiasDeclaration_ensures hP hr hs₁ (hk ▸ Kind.plain_keyword _))
  · rename_i hk
    exact keep (effectDeclaration_ensures hr hs₁ (hk ▸ Kind.plain_keyword _))
  · rename_i hk
    exact keep (implDeclaration_ensures hP hr hs₁ (hk ▸ Kind.plain_keyword _))
  · rename_i hk
    exact keep (functionDeclaration_ensures hP hr hs₁ (hk ▸ Kind.plain_keyword _))
  · rw [ensures_ite]
    split
    · exact hr.drop_modifiers
    · exact (complain_sound (n := n + 1) _).then hr.drop_modifiers hs₁ fun _ s₂ hr _ => hr

/-! ## Statements -/

theorem localVariable_sound (hP : P.Sound n) :
    SoundFrom (n + 1) Kind.Plain (localVariable P) fun s => leaves [s.node] := by
  refine .of_advance (fun _ hk => hk) fun keyword _ mode s hs => ?_
  refine expectIdentifier_sound.then (.refl s) hs fun name s₁ hr hs₁ => ?_
  refine (typeAfter?_sound hP .colon).then hr hs₁ fun type s₂ hr hs₂ => ?_
  refine (valueAfterEq?_sound hP).then hr hs₂ fun value s₃ hr _ => ?_
  rw [ensures_pure]
  simpa using hr

theorem expressionStatement_sound (hP : P.Sound n) :
    Sound n (expressionStatement P) fun o => o.toList.flatMap fun s => leaves [s.node] := by
  intro mode s hs
  unfold expressionStatement
  rw [ensures_bind, ensures_consumed]
  refine hP.expression.then (.refl s) hs fun target s₁ hr hs₁ => ?_
  rw [List.nil_append] at hr
  rw [ensures_bind, ensures_consumed, ensures_ite]
  split
  · rename_i hc
    rw [(hr.unmoved (by simpa using hc)).1] at hr
    exact hr
  rw [ensures_bind, ensures_isAtSameLine, ensures_ite]
  split
  · rename_i hk
    simp only [Bool.and_eq_true, beq_iff_eq] at hk
    refine advance_plain_then hr (hs₁.mono (Nat.le_succ n)) (hk.1 ▸ Kind.plain_mark _)
      fun s₂ hr hs₂ _ _ => ?_
    refine hP.expression.then hr hs₂ fun value s₃ hr _ => ?_
    rw [ensures_pure]
    simpa using hr
  · rw [ensures_pure]
    simpa using hr

theorem statement_sound (hP : P.Sound n) :
    Sound n (statement P) fun o => o.toList.flatMap fun s => leaves [s.node] := by
  intro mode s hs
  unfold statement
  rw [ensures_bind, ensures_kind, ensures_bind, ensures_nextKind, ensures_ite]
  split
  · rename_i hk
    rw [Bool.and_eq_true] at hk
    rw [ensures_bind]
    refine (localVariable_sound hP (hs.mono (Nat.le_succ n))
      (Kind.plain_of_contains [.val, .var] hk.1)).mono fun v s₁ h => ?_
    rw [ensures_pure]
    simpa using h.1
  rw [ensures_ite]
  split
  · refine hP.declaration.then (.refl s) hs fun d s₁ hr _ => ?_
    rw [ensures_pure]
    cases d with
    | none => exact hr
    | some d => simpa using hr
  · exact expressionStatement_sound hP hs

theorem wholeStatement_sound (hP : P.Sound n) :
    Sound n (wholeStatement P) fun o => o.toList.flatMap fun s => leaves [s.node] := by
  intro mode s hs
  unfold wholeStatement
  refine (statement_sound hP).then (.refl s) hs fun found s₁ hr hs₁ => ?_
  rw [List.nil_append] at hr
  rw [ensures_bind, ensures_get, ensures_ite]
  split
  · rename_i hk
    have hk' : s₁.current.token.kind ≠ .eof := by intro h; simp [h] at hk
    rw [ensures_bind]
    refine (recoverTo_ensures .statementEnd endsStatement hs₁.closed hk').mono fun _ s₂ h => ?_
    rw [ensures_pure]
    simpa using hr.trans h.1
  · exact hr

/-- **Blocks are read soundly**, with one more token to go than the phrases inside them. -/
theorem block_sound (hP : P.Sound n) :
    SoundFrom (n + 1) (· = .mark .leftBrace) (block P) fun b => leaves [b.node] := by
  refine .of_advance (fun _ hk => hk ▸ Kind.plain_mark _) fun _ _ mode s hs => ?_
  refine (braced_sound .statementEnd endsStatement (wholeStatement_sound hP)).then (.refl s) hs
    fun statements s₁ hr _ => ?_
  rw [ensures_pure]
  simpa [statementNodes_eq, leaves_map] using hr

end Yurin.Parser
