import Yurin.Proofs.Parser.Tokens
import Yurin.Proofs.Parser.Whole

/-!
# Declarations without a complaint are whole

`declaration_whole`: over productions that gather what they read, a declaration that is read without
a complaint is whole. A declaration has the gaps of its parts and no others, so each part is
followed through the parser of its kind: names, types and parameter lists that the grammar asks for
are there, and a member of a body is left out only after a complaint.

Result: `readFile_whole`, and `parse_whole` for a source. When reading a file ends without a
complaint, every declaration of the file is whole, and the landmarks of the file are tokens of the
stream, in their order.
-/

namespace Yurin.Parser

variable {α β : Type} {n : Nat} {P : Productions} {mode : LineMode} {s s₀ s' : State}
  {type : Parser (Option TypeExpr)}

theorem Whole.inBrackets {p : Parser α} {kept : α → List Token} {good : α → Prop}
    (hp : Whole n p kept good) : Whole n (inBrackets p) kept good :=
  fun _ _ hs => hp hs

/-! ## Types -/

theorem dottedName_whole : Whole n dottedName (fun _ => []) fun d => d.isSome = true := by
  intro mode s hs
  unfold dottedName
  refine expectIdentifier_whole.then (.refl s) hs fun first s₁ hg hs₁ => ?_
  cases first with
  | none => exact hg.imp (.refl _) And.right
  | some first => exact dottedRest_sound.pass hg hs₁ fun _ s₂ hg _ => hg.imp (.refl _) fun _ => rfl

theorem regularType_whole (h : Sound n type typeLeaves) :
    Whole (n + 1) (regularType type) (fun _ => []) fun t => t.isSome = true := by
  intro mode s hs
  unfold regularType
  refine (accept_sound (Kind.plain_keyword .exist)).pass (.refl s) hs fun _ s₁ hg hs₁ => ?_
  refine dottedName_whole.then hg hs₁ fun name s₂ hg hs₂ => ?_
  cases name with
  | none => exact hg.imp (.refl _) And.right
  | some name =>
    refine (typeArguments?_sound h).pass hg hs₂ fun _ s₃ hg hs₃ => ?_
    exact nullableMark_sound.pass hg hs₃ fun _ s₄ hg _ => hg.imp (.refl _) fun _ => rfl

/-- A type is there unless its place is complained about. -/
theorem typeExpr_whole (hsound : Sound n type typeLeaves)
    (h : Whole n type (fun _ => []) fun t => t.isSome = true) :
    Whole (n + 1) (typeExpr type) (fun _ => []) fun t => t.isSome = true := by
  intro mode s hs
  unfold typeExpr
  rw [ensures_bind, ensures_kind]
  split
  · rename_i hk
    refine advance_drop_then (.refl s) hs (by simp [hk]) fun s₁ hg hs₁ _ _ => ?_
    refine h.inBrackets.then hg hs₁ fun inner s₂ hg hs₂ => ?_
    refine (expectUnit_sound (Kind.plain_mark .rightParen)).pass hg hs₂ fun _ s₃ hg _ => ?_
    rw [ensures_pure]
    exact hg.imp (.refl _) fun hinner => Option.isSome_map.trans hinner.2
  · rename_i hk
    exact advance_drop_then (.refl s) hs (by simp [hk])
      fun s₁ hg _ _ _ => hg.imp (.refl _) fun _ => rfl
  · rename_i hk
    exact advance_drop_then (.refl s) hs (by simp [hk])
      fun s₁ hg _ _ _ => hg.imp (.refl _) fun _ => rfl
  · exact regularType_whole hsound hs
  · exact regularType_whole hsound hs
  · exact (Gathers.refl s).complain _

/-! ## Parts of declarations -/

/-- The productions that a declaration is made of gather what they read. -/
structure Productions.Whole (n : Nat) (P : Productions) : Prop where
  sound : P.Sound n
  type : Parser.Whole n P.type (fun _ => []) fun t => t.isSome = true
  declaration : Parser.Whole n P.declaration (fun d => d.toList.flatMap Declaration.landmarks)
    fun found => ∀ d ∈ found, Declaration.Whole d

theorem typeAfter_whole (hP : P.Whole n) (mark : Mark) :
    Whole n (typeAfter P mark) (fun _ => []) fun t => t.isSome = true := by
  intro mode s hs
  unfold typeAfter
  refine (expect_whole (by simp)).then (.refl s) hs fun found s₁ hg hs₁ => ?_
  rw [ensures_ite]
  split
  · exact (hP.type hs₁).mono fun t s₂ hg₂ => (hg.trans hg₂).imp (.refl _) And.right
  · rename_i hnone
    exact hg.imp (.refl _) fun h => absurd h.2 hnone

theorem namesOf_genericsLeaves (generics : Option (List Identifier)) :
    namesOf (genericsLeaves generics) = (generics.getD []).map Identifier.token := by
  simp [genericsLeaves, nameLeaves, namesOf, List.filterMap_map, Function.comp_def, Leaf.name?]

theorem typeParameters?_whole :
    Whole n typeParameters? (fun g => (g.getD []).map Identifier.token) fun _ => True := by
  have h := (typeParameters?_sound (n := n)).whole
  simp only [namesOf_genericsLeaves] at h
  exact h

/-- A part that is read where a token of the kind `k` stands, with another parser for the places
where none does. -/
theorem Whole.whenAt {k : Kind} {p : Parser α} {f : α → β} {q : Parser β}
    {kept : β → List Token} {good : β → Prop}
    (hp : ∀ {mode s}, Ready n s → s.current.token.kind = k →
      Ensures p mode s fun a s' => Gathers s (kept (f a)) (good (f a)) s')
    (hq : Whole n q kept good) :
    Whole n (do if ← isAt k then return f (← p) else q) kept good := by
  intro mode s hs
  rw [ensures_bind, ensures_isAt, ensures_ite]
  split
  · rename_i hk
    rw [ensures_bind]
    exact hp hs (beq_iff_eq.mp hk)
  · exact hq hs

/-- A part that is not there has no gaps. -/
theorem pure_whole {a : α} {kept : α → List Token} {good : α → Prop} (hkept : kept a = [])
    (hgood : good a) : Whole n (pure a) kept good := by
  intro mode s _
  rw [ensures_pure, hkept]
  exact (Gathers.refl s).imp (.refl _) fun _ => hgood

/-! ## Value parameters -/

/-- The names of value parameters that may be absent. -/
def parameterNames (ps : Option (List Parameter)) : List Token :=
  (ps.getD []).map fun p => p.name.token

/-- Value parameters that may be absent have types. -/
def Typed (ps : Option (List Parameter)) : Prop := ∀ p ∈ ps.getD [], p.type?.isSome = true

theorem valueParameter_whole (hP : P.Whole n) (hs : Ready n s)
    (hk : s.current.token.kind = .identifier) :
    Ensures (valueParameter P) mode s fun p s' =>
      Gathers s [p.name.token] (p.type?.isSome = true) s' := by
  unfold valueParameter
  refine advance_keep_then (.refl s) (hs.mono (Nat.le_succ n)) (by simp [hk])
    fun s₁ hg hs₁ _ _ => ?_
  refine (typeAfter_whole hP .colon).then hg hs₁ fun type s₂ hg hs₂ => ?_
  exact (valueAfterEq?_sound hP.sound).pass hg hs₂ fun value s₃ hg _ => hg.imp (.refl _) And.right

theorem badParameter_gathers (hs : Ready n s) :
    Ensures badParameter mode s fun _ s' => Gathers s [] False s' := by
  unfold badParameter
  have hc := s.gathers_complain (.mismatched .parameter)
  obtain ⟨hr, hrec⟩ := State.reads_skipUntil endsParameter _ (hc.ready hs).closed
    (Nat.lt_succ_self _) (s.complain_recovering _)
  have hg := (hc.trans hr.gathers).imp (List.nil_sublist _) And.left
  rw [ensures_bind, ensures_complain, ensures_bind, ensures_skipUntil]
  generalize State.skipUntil endsParameter _ (s.complain (.mismatched .parameter)) = s' at hg hrec ⊢
  rw [ensures_bind, ensures_isAt, ensures_ite]
  split
  · rename_i hk
    have hne : s'.current.token.kind ≠ .eof := by simp [beq_iff_eq.mp hk]
    obtain ⟨hr', -, -⟩ := State.reads_next (hg.ready hs).closed hne hrec
    rw [ensures_bind, ensures_skip, ensures_pure]
    exact (hg.trans hr'.gathers).imp (List.nil_sublist _) And.left
  · exact hg

theorem parameterStep_whole (hP : P.Whole n) :
    WholeStep n (parameterStep P) (fun p => [p.name.token]) fun p => p.type?.isSome = true := by
  intro mode s hs
  unfold parameterStep
  rw [ensures_bind, ensures_isAtAny, ensures_ite]
  split
  · exact WholeStep.stop_of_gathers (.refl s)
  rw [ensures_bind, ensures_isAt, ensures_ite]
  split
  · rename_i hk
    rw [ensures_bind]
    refine (valueParameter_whole hP hs (by simpa using hk)).mono fun p s₁ hg => ?_
    rw [ensures_bind]
    refine (accept_ensures (Kind.plain_mark .comma) (hg.ready hs)).mono
      fun more s₂ ⟨hr, hlt, _⟩ => ?_
    rw [ensures_pure]
    refine ⟨?_, fun hm => Nat.lt_of_le_of_lt hg.consumed_le (hlt hm)⟩
    exact (hg.trans hr.gathers).imp (by simp) fun h a ha => Option.mem_some.mp ha ▸ h.1
  · exact ((badParameter_gathers hs).and (badParameter_ensures hs.closed)).mono
      fun found s₁ ⟨hg, _, _, hlt⟩ => ⟨hg.elim, hlt⟩

theorem valueParameters_whole (hP : P.Whole n) (hs : Ready n s)
    (hk : s.current.token.kind = .mark .leftParen) :
    Ensures (valueParameters P) mode s fun ps s' =>
      Gathers s (parameterNames (some ps)) (Typed (some ps)) s' := by
  unfold valueParameters
  refine advance_drop_then (.refl s) (hs.mono (Nat.le_succ n)) (by simp [hk])
    fun s₁ hg hs₁ _ _ => ?_
  refine (collect_whole (parameterStep_whole hP)).inBrackets.then hg hs₁ fun ps s₂ hg hs₂ => ?_
  refine (expectUnit_sound (Kind.plain_mark .rightParen)).pass hg hs₂ fun _ s₃ hg _ => ?_
  rw [ensures_pure]
  exact hg.imp (by simp [parameterNames, List.map_eq_flatMap]) And.right

theorem valueParameters?_whole (hP : P.Whole n) :
    Whole n (valueParameters? P) parameterNames Typed :=
  .whenAt (valueParameters_whole hP) (pure_whole rfl nofun)

theorem requiredParameters_whole (hP : P.Whole n) :
    Whole n (requiredParameters P) parameterNames Typed :=
  .whenAt (valueParameters_whole hP) fun _ s _ => (Gathers.refl s).complain _

/-! ## Bodies -/

/-- What a body that may be absent declares is whole. -/
def WholeBody (body : Option (List Declaration)) : Prop := ∀ d ∈ body.getD [], d.Whole

theorem typeBody_whole (hP : P.Whole n) (hs : Ready n s)
    (hk : s.current.token.kind = .mark .leftBrace) :
    Ensures (typeBody P) mode s fun ds s' =>
      Gathers s (bodyLandmarks (some ds)) (WholeBody (some ds)) s' := by
  unfold typeBody
  refine advance_drop_then (.refl s) (hs.mono (Nat.le_succ n)) (by simp [hk])
    fun s₁ hg hs₁ _ _ => ?_
  refine (braced_whole .member endsMember hP.declaration hs₁).mono fun ds s₂ hg₂ => ?_
  rw [bodyLandmarks, landmarksOf_eq]
  exact (hg.trans hg₂).imp (.refl _) And.right

theorem typeBody?_whole (hP : P.Whole n) : Whole n (typeBody? P) bodyLandmarks WholeBody :=
  .whenAt (typeBody_whole hP) (pure_whole rfl nofun)

/-! ## Names -/

theorem explicitReceiver_whole (hP : P.Whole n) :
    Whole n (explicitReceiver P) (fun _ => []) fun found => found.2.isSome = true := by
  intro mode s hs
  unfold explicitReceiver
  refine hP.sound.type.pass (.refl s) hs fun receiver s₁ hg hs₁ => ?_
  rw [ensures_bind, ensures_isAtAny, ensures_ite]
  split
  · rename_i hk
    refine advance_drop_then hg (hs₁.mono (Nat.le_succ n))
      (Kind.plain_of_contains_mark [.dot, .safeDot] hk).ne_eof fun s₂ hg hs₂ _ _ => ?_
    exact expectIdentifier_whole.then hg hs₂ fun name s₃ hg _ => hg.imp (.refl _) And.right
  · -- no dot stands here, so there is a complaint
    rename_i hk
    unfold expect_ expect
    rw [ensures_bind, ensures_bind, ensures_bind, ensures_isAt, ensures_ite]
    split
    · rename_i hdot
      simp [beq_iff_eq.mp hdot] at hk
    · exact hg.complain _

theorem genericReceiver_whole (hP : P.Whole n) (parts : List Identifier) (hs : Ready n s)
    (hk : s.current.token.kind = .mark .leftAngle) :
    Ensures (genericReceiver P parts) mode s fun found s' =>
      Gathers s [] (found.2.isSome = true) s' := by
  unfold genericReceiver
  rw [ensures_bind]
  refine (typeArguments_sound hP.sound.type (hs.mono (Nat.le_succ n)) hk).mono
    fun types s₁ ⟨hr, _⟩ => ?_
  have hg := hr.gathers.imp (List.nil_sublist _) id
  refine receiverDot_sound.pass hg (hg.ready hs) fun nullable s₂ hg hs₂ => ?_
  exact expectIdentifier_whole.then hg hs₂ fun name s₃ hg _ => hg.imp (.refl _) And.right

/-- A dotted name that has been read is not empty. -/
theorem dottedName_parts (hs : Ready n s) :
    Ensures dottedName mode s fun d _ => ∀ parts ∈ d, parts.parts ≠ [] := by
  unfold dottedName
  refine expectIdentifier_sound.then (.refl s) hs fun first s₁ hr hs₁ => ?_
  cases first with
  | none => exact nofun
  | some first =>
    refine dottedRest_sound.then hr hs₁ fun rest s₂ _ _ => ?_
    rw [ensures_pure]
    rintro _ ⟨⟩
    exact List.cons_ne_nil _ _

theorem receiverAndName_whole (hP : P.Whole n) :
    Whole n (receiverAndName P) (fun _ => []) fun found => found.2.isSome = true := by
  intro mode s hs
  unfold receiverAndName
  rw [ensures_bind, ensures_isAtAny, ensures_ite]
  split
  · exact explicitReceiver_whole hP hs
  have hparts : Ensures dottedName mode s _ := dottedName_parts hs
  have hname : Ensures dottedName mode s _ := dottedName_whole hs
  rw [ensures_bind]
  refine (hname.and hparts).mono fun name s₁ ⟨hg, hne⟩ => ?_
  have hs₁ := hg.ready hs
  cases name with
  | none => exact hg
  | some name =>
    obtain ⟨parts⟩ := name
    have hlast : parts.getLast?.isSome = true := by
      rw [List.getLast?_isSome]
      exact hne _ rfl
    rw [ensures_bind, ensures_isAt, ensures_ite]
    split
    · rename_i hk
      refine (genericReceiver_whole hP parts hs₁ (by simpa using hk)).mono fun found s₂ hg₂ => ?_
      exact (hg.trans hg₂).imp (.refl _) And.right
    rw [ensures_bind, ensures_isAt, ensures_bind, ensures_nextKind, ensures_ite]
    split
    · rename_i hk
      simp only [Bool.and_eq_true, beq_iff_eq] at hk
      refine advance_drop_then hg (hs₁.mono (Nat.le_succ n)) (by simp [hk.1])
        fun s₂ hg hs₂ _ hcur => ?_
      exact advance_drop_then hg (hs₂.mono (Nat.le_succ n)) (by rw [hcur, hk.2]; simp)
        fun s₃ hg _ _ _ => hg.imp (.refl _) fun _ => rfl
    · split
      · exact hg.imp (.refl _) fun _ => hlast
      · exact hg.imp (.refl _) fun _ => hlast

/-! ## Kinds of declarations -/

theorem namedHead_whole {mods : List Token} (hs : Ready (n + 1) s)
    (hk : s.current.token.kind ≠ .eof) {f : Head → Parser β} {Q : β → State → Prop}
    (hf : ∀ head s', Gathers s (head.keyword :: (head.typeParameters.getD []).map Identifier.token)
      (head.name.isSome = true) s' → Ready n s' → Ensures (f head) mode s' Q) :
    Ensures (namedHead mods >>= f) mode s Q := by
  rw [ensures_bind]
  unfold namedHead
  refine advance_keep_then (.refl s) hs hk fun s₁ hg hs₁ _ _ => ?_
  refine expectIdentifier_whole.then hg hs₁ fun name s₂ hg hs₂ => ?_
  refine typeParameters?_whole.then hg hs₂ fun generics s₃ hg hs₃ => ?_
  exact hf _ s₃ (hg.imp (.refl _) fun h => h.1.2) hs₃

/-- A declaration that is complete and has a body that is whole. -/
theorem whole_of_gathers {d : Declaration} {k : List Token} {g : Prop} (hg : Gathers s k g s')
    (hkept : d.ownLandmarks ++ landmarksOf d.members = k) (hcomplete : g → d.Complete)
    (hmembers : g → ∀ m ∈ d.members, m.Whole) : Gathers s d.landmarks d.Whole s' := by
  have hlandmarks : d.landmarks = k := (Declaration.landmarks_eq d).trans hkept
  subst hlandmarks
  exact hg.imp (.refl _) fun h => ⟨hcomplete h, hmembers h⟩

section Kinds

attribute [local simp] Declaration.ownLandmarks Declaration.keyword? Declaration.typeParameters
  Declaration.parameters Declaration.members parameterNames bodyLandmarks_eq landmarksOf

theorem dataDeclaration_whole (hP : P.Whole n) (mods : List Token) (flavor : Option Token)
    (hs : Ready (n + 1) s) (hk : s.current.token.kind ≠ .eof) :
    Ensures (dataDeclaration P mods flavor) mode s
      fun d s' => Gathers s d.landmarks d.Whole s' := by
  unfold dataDeclaration
  refine namedHead_whole hs hk fun head s₁ hg hs₁ => ?_
  refine (valueParameters?_whole hP).then hg hs₁ fun ps s₂ hg hs₂ => ?_
  refine (typesAfter?_sound hP.sound .colon).pass hg hs₂ fun types s₃ hg hs₃ => ?_
  refine (typeBody?_whole hP).then hg hs₃ fun members s₄ hg _ => ?_
  rw [ensures_pure]
  exact whole_of_gathers hg (by simp) (fun h => h.1) fun h => h.2

theorem traitDeclaration_whole (hP : P.Whole n) (mods : List Token) (hs : Ready (n + 1) s)
    (hk : s.current.token.kind ≠ .eof) :
    Ensures (traitDeclaration P mods) mode s fun d s' => Gathers s d.landmarks d.Whole s' := by
  unfold traitDeclaration
  refine namedHead_whole hs hk fun head s₁ hg hs₁ => ?_
  refine (typesAfter?_sound hP.sound .colon).pass hg hs₁ fun types s₂ hg hs₂ => ?_
  refine (typeBody?_whole hP).then hg hs₂ fun members s₃ hg _ => ?_
  rw [ensures_pure]
  exact whole_of_gathers hg (by simp) (fun h => h.1) fun h => h.2

theorem typealiasDeclaration_whole (hP : P.Whole n) (mods : List Token) (hs : Ready (n + 1) s)
    (hk : s.current.token.kind ≠ .eof) :
    Ensures (typealiasDeclaration P mods) mode s fun d s' => Gathers s d.landmarks d.Whole s' := by
  unfold typealiasDeclaration
  refine namedHead_whole hs hk fun head s₁ hg hs₁ => ?_
  refine (typeAfter_whole hP .eq).then hg hs₁ fun type s₂ hg _ => ?_
  rw [ensures_pure]
  exact whole_of_gathers hg (by simp) id fun _ => nofun

theorem effectDeclaration_whole (mods : List Token) (hs : Ready (n + 1) s)
    (hk : s.current.token.kind ≠ .eof) :
    Ensures (effectDeclaration mods) mode s fun d s' => Gathers s d.landmarks d.Whole s' := by
  unfold effectDeclaration
  refine namedHead_whole hs hk fun head s₁ hg _ => ?_
  rw [ensures_pure]
  exact whole_of_gathers hg (by simp) id fun _ => nofun

theorem implDeclaration_whole (hP : P.Whole n) (mods : List Token) (hs : Ready (n + 1) s)
    (hk : s.current.token.kind ≠ .eof) :
    Ensures (implDeclaration P mods) mode s fun d s' => Gathers s d.landmarks d.Whole s' := by
  unfold implDeclaration
  refine advance_keep_then (.refl s) hs hk fun s₁ hg hs₁ _ _ => ?_
  refine hP.type.then hg hs₁ fun data s₂ hg hs₂ => ?_
  refine (typeAfter_whole hP .colon).then hg hs₂ fun trait s₃ hg hs₃ => ?_
  refine (typeBody?_whole hP).then hg hs₃ fun members s₄ hg _ => ?_
  rw [ensures_pure]
  exact whole_of_gathers hg (by simp) (fun h => ⟨h.1.1.2, h.1.2⟩) fun h => h.2

theorem functionDeclaration_whole (hP : P.Whole n) (mods : List Token) (hs : Ready (n + 1) s)
    (hk : s.current.token.kind ≠ .eof) :
    Ensures (functionDeclaration P mods) mode s fun d s' => Gathers s d.landmarks d.Whole s' := by
  unfold functionDeclaration
  refine advance_keep_then (.refl s) hs hk fun s₁ hg hs₁ _ _ => ?_
  refine typeParameters?_whole.then hg hs₁ fun generics s₂ hg hs₂ => ?_
  refine (receiverAndName_whole hP).then hg hs₂ fun ⟨receiver, name⟩ s₃ hg hs₃ => ?_
  refine (requiredParameters_whole hP).then hg hs₃ fun ps s₄ hg hs₄ => ?_
  refine (typeAfter?_sound hP.sound .colon).pass hg hs₄ fun type s₅ hg hs₅ => ?_
  refine (typesAfter?_sound hP.sound .divide).pass hg hs₅ fun effects s₆ hg hs₆ => ?_
  refine (body?_sound hP.sound).pass hg hs₆ fun ⟨block, value⟩ s₇ hg _ => ?_
  rw [ensures_pure]
  exact whole_of_gathers hg (by simp) (fun h => ⟨h.1.2, h.2⟩) fun _ => nofun

theorem propertyDeclaration_whole (hP : P.Whole n) (mods : List Token) (hs : Ready (n + 1) s)
    (hk : s.current.token.kind ≠ .eof) :
    Ensures (propertyDeclaration P mods) mode s fun d s' => Gathers s d.landmarks d.Whole s' := by
  unfold propertyDeclaration
  refine advance_keep_then (.refl s) hs hk fun s₁ hg hs₁ _ _ => ?_
  refine typeParameters?_whole.then hg hs₁ fun generics s₂ hg hs₂ => ?_
  refine (receiverAndName_whole hP).then hg hs₂ fun ⟨receiver, name⟩ s₃ hg hs₃ => ?_
  refine (typeAfter?_sound hP.sound .colon).pass hg hs₃ fun type s₄ hg hs₄ => ?_
  refine (typesAfter?_sound hP.sound .divide).pass hg hs₄ fun effects s₅ hg hs₅ => ?_
  refine (valueAfterEq?_sound hP.sound).pass hg hs₅ fun value s₆ hg hs₆ => ?_
  refine (collect_sound (accessorStep_sound hP.sound)).pass hg hs₆ fun accessors s₇ hg _ => ?_
  rw [ensures_pure]
  exact whole_of_gathers hg (by simp) (fun h => h.2) fun _ => nofun

end Kinds

/-- **A declaration that is read without a complaint is whole.** -/
theorem declaration_whole (hP : P.Whole n) :
    Whole (n + 1) (declaration P) (fun d => d.toList.flatMap Declaration.landmarks)
      fun found => ∀ d ∈ found, Declaration.Whole d := by
  intro mode s hs
  unfold declaration
  rw [ensures_bind, ensures_current]
  refine modifiers_sound.pass (.refl s) hs fun mods s₁ hg hs₁ => ?_
  have keep {p : Parser Declaration} {s₂ : State} (hg : Gathers s [] True s₂)
      (hp : Ensures p mode s₂ fun d s' => Gathers s₂ d.landmarks d.Whole s') :
      Ensures (do return some (← p)) mode s₂ fun found s' =>
        Gathers s (found.toList.flatMap Declaration.landmarks)
          (∀ d ∈ found, Declaration.Whole d) s' := by
    rw [ensures_bind]
    refine hp.mono fun d s' h => ?_
    rw [ensures_pure]
    exact (hg.trans h).imp (by simp) fun hd _ hmem => Option.mem_some.mp hmem ▸ hd.2
  rw [ensures_bind, ensures_kind]
  split
  · rename_i hk
    exact keep hg (dataDeclaration_whole hP mods none hs₁ (by simp [hk]))
  · rename_i hk
    rw [ensures_bind, ensures_nextKind, ensures_ite]
    split
    · rename_i hnext
      refine advance_drop_then hg hs₁ (by simp [hk]) fun s₂ hg hs₂ _ hcur => ?_
      have hk₂ : s₂.current.token.kind ≠ .eof := by
        rw [hcur, beq_iff_eq.mp hnext]
        simp
      exact keep hg (dataDeclaration_whole hP mods _ (hs₂.mono (Nat.le_succ n)) hk₂)
    · exact keep hg (propertyDeclaration_whole hP mods hs₁ (by simp [hk]))
  · rename_i hk
    refine advance_drop_then hg hs₁ (by simp [hk]) fun s₂ hg hs₂ _ _ => ?_
    rw [ensures_bind, ensures_isAt, ensures_ite]
    split
    · rename_i hk₂
      exact keep hg (dataDeclaration_whole hP mods _ (hs₂.mono (Nat.le_succ n))
        (by simp [beq_iff_eq.mp hk₂]))
    · exact hg.complain _
  · rename_i hk
    exact keep hg (propertyDeclaration_whole hP mods hs₁ (by simp [hk]))
  · rename_i hk
    exact keep hg (traitDeclaration_whole hP mods hs₁ (by simp [hk]))
  · rename_i hk
    exact keep hg (typealiasDeclaration_whole hP mods hs₁ (by simp [hk]))
  · rename_i hk
    exact keep hg (effectDeclaration_whole mods hs₁ (by simp [hk]))
  · rename_i hk
    exact keep hg (implDeclaration_whole hP mods hs₁ (by simp [hk]))
  · rename_i hk
    exact keep hg (functionDeclaration_whole hP mods hs₁ (by simp [hk]))
  · rw [ensures_ite]
    split
    · exact hg.imp (.refl _) fun _ => nofun
    · exact hg.complain _

/-! ## Files -/

theorem grammarUpTo_whole (depth : Nat) : (grammarUpTo depth).Whole depth := by
  induction depth with
  | zero =>
    exact
      { sound := grammarUpTo_sound 0
        type := fun _ _ hs => (not_ready_zero hs).elim
        declaration := fun _ _ hs => (not_ready_zero hs).elim }
  | succ depth ih =>
    exact
      { sound := grammarUpTo_sound (depth + 1)
        type := typeExpr_whole ih.sound.type ih.type
        declaration := declaration_whole ih }

theorem declarationStep_whole (hP : P.Whole n) :
    WholeStep n (declarationStep P) Declaration.landmarks Declaration.Whole := by
  intro mode s hs
  unfold declarationStep
  rw [ensures_bind, ensures_isAt, ensures_ite]
  split
  · exact WholeStep.stop_of_gathers (.refl s)
  · rename_i hk
    exact progress_whole .declaration endsDeclaration hP.declaration hs (by simpa using hk)

theorem file_whole (hP : P.Whole n) :
    Whole n (file P) (fun f => landmarksOf f.declarations)
      fun f => ∀ d ∈ f.declarations, d.Whole := by
  intro mode s hs
  unfold file
  refine packageHeader?_sound.pass (.refl s) hs fun package s₁ hg hs₁ => ?_
  refine (collect_sound importStep_sound).pass hg hs₁ fun imports s₂ hg hs₂ => ?_
  refine (collect_whole (declarationStep_whole hP)).then hg hs₂ fun ds s₃ hg _ => ?_
  rw [ensures_pure]
  exact hg.imp (by simp [landmarksOf_eq]) And.right

/-- **A file that is read without a complaint** has no gaps, and its landmarks are tokens of the
stream in their order, none of them the end of input. -/
theorem readFile_whole {stream : Significant} (h : ∃ l ∈ stream.lexemes, l.token.kind = .eof)
    (hc : (readFile stream).2.complaints = []) :
    (∀ d ∈ (readFile stream).1.declarations, d.Whole) ∧
      (landmarksOf (readFile stream).1.declarations).Sublist (stream.lexemes.map Lexeme.token) ∧
      ∀ t ∈ landmarksOf (readFile stream).1.declarations, t.kind ≠ .eof := by
  obtain ⟨ha, -, -⟩ := State.start_of_eof h
  have hfile : Gathers (.start stream) (landmarksOf (readFile stream).1.declarations)
      (∀ d ∈ (readFile stream).1.declarations, d.Whole) (readFile stream).2 :=
    file_whole (grammarUpTo_whole _) (State.start_ready h)
  obtain ⟨es, run, hes⟩ := hfile
  obtain ⟨hsub, hwhole⟩ := hes (State.start_calm stream) (run.complaintsOf_eq_nil hc)
  refine ⟨hwhole, hsub.trans ?_, fun t ht => ?_⟩
  · rw [← ha, run.ahead_eq, List.map_append]
    exact List.sublist_append_left _ _
  · obtain ⟨l, hl, rfl⟩ := List.mem_map.mp (hsub.subset ht)
    exact run.open_of_mem hl

end Yurin.Parser

namespace Yurin

/-- **Without a complaint nothing is missing from the tree**, and its landmarks stand in the source
one behind the other. -/
theorem parse_whole {source : Bytes} (h : (parse source).complaints = []) :
    (∀ d ∈ (parse source).file.declarations, d.Whole) ∧
      (landmarksOf (parse source).file.declarations).Pairwise fun t u => t.start < u.start := by
  have hc : (Parser.readFile (.ofTokens false none (lex source))).2.complaints = [] :=
    List.reverse_eq_nil_iff.mp h
  obtain ⟨hwhole, hsub, hopen⟩ := Parser.readFile_whole (exists_eof source) hc
  have hsub := hsub.trans (lexemes_sublist source)
  refine ⟨hwhole, ((lex_pairwise source).sublist hsub).imp_of_mem ?_⟩
  intro t u ht _ hle
  have hlt := start_lt_stop (hsub.subset ht) (hopen t ht)
  omega

end Yurin
