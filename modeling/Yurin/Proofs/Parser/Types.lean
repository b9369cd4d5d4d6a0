import Yurin.Proofs.Parser.Sound

/-!
# Names and types are read soundly

`typeExpr_sound`: a parser of types over sound productions is sound, with one more token to go.
-/

namespace Yurin.Parser

variable {n : Nat} {type : Parser (Option TypeExpr)}

theorem dottedStep_sound :
    SoundStep n dottedStep (fun i => [.name i.token]) fun _ => True := by
  intro mode s hs
  unfold dottedStep
  rw [ensures_bind, ensures_isAt, ensures_bind, ensures_nextKind, ensures_ite]
  split
  · rename_i h
    simp only [Bool.and_eq_true, beq_iff_eq] at h
    refine advance_plain_then (.refl s) (hs.mono (Nat.le_succ n)) (h.1 ▸ Kind.plain_mark .dot)
      fun s₁ hr hs₁ hlt hcur => ?_
    refine advance_name_then hr hs₁ (hcur ▸ h.2) fun t s₂ hr hs₂ hlt₂ _ => ?_
    rw [ensures_pure]
    exact ⟨hr, fun _ => Nat.lt_trans hlt hlt₂, nofun⟩
  · exact SoundStep.stop_of_reads (.refl s)

theorem dottedRest_sound : Sound n dottedRest nameLeaves := by
  have h := collect_sound (dottedStep_sound (n := n))
  simp only [← List.map_eq_flatMap] at h
  exact h

/-- The leaves of a type that may be absent. -/
abbrev typeLeaves (type : Option TypeExpr) : List Leaf := leaves (typeNode? type)

theorem dottedName_sound :
    Sound n dottedName fun d => nameLeaves (d.elim [] DottedName.parts) := by
  intro mode s hs
  unfold dottedName
  refine expectIdentifier_sound.then (.refl s) hs fun first s₁ hr hs₁ => ?_
  cases first with
  | none => exact hr
  | some first => exact dottedRest_sound.then hr hs₁ fun rest s₂ hr _ => by simpa using hr

theorem typeStep_sound (h : Sound n type typeLeaves) :
    SoundStep n (typeStep type) (fun t => leaves [t.node]) fun _ => True := by
  intro mode s hs
  unfold typeStep
  refine h.then (.refl s) hs fun found s₁ hr hs₁ => ?_
  cases found with
  | none => exact SoundStep.stop_of_reads hr
  | some t => exact comma_step hr hs₁

theorem typeArgumentStep_sound (h : Sound n type typeLeaves) :
    SoundStep n (typeArgumentStep type) (fun t => leaves [t.node]) fun _ => True := by
  intro mode s hs
  unfold typeArgumentStep
  rw [ensures_bind, ensures_isAtAny, ensures_ite]
  split
  · exact SoundStep.stop_of_reads (.refl s)
  · exact typeStep_sound h hs

theorem leaves_typeNodes (types : List TypeExpr) :
    leaves (typeNodes types) = types.flatMap fun t => leaves [t.node] := by
  rw [typeNodes_eq, leaves_map]

theorem typeArguments_sound (h : Sound n type typeLeaves) :
    SoundFrom (n + 1) (· = .mark .leftAngle) (typeArguments type) fun types =>
      leaves (typeNodes types) := by
  refine .of_advance (fun _ hk => hk ▸ Kind.plain_mark _) fun _ _ => Sound.inBrackets ?_
  intro mode s hs
  refine (collect_sound (typeArgumentStep_sound h)).then (.refl s) hs fun types s₁ hr hs₁ => ?_
  refine (expectUnit_sound (Kind.plain_mark .rightAngle)).then hr hs₁ fun _ s₂ hr _ => ?_
  rw [ensures_pure]
  simpa [leaves_typeNodes] using hr

theorem typeList_sound (h : Sound n type typeLeaves) :
    Sound n (typeList type) fun types => leaves (typeNodes types) := by
  simp only [leaves_typeNodes]
  exact collect_sound (typeStep_sound h)

theorem typeArguments?_sound (h : Sound n type typeLeaves) :
    Sound (n + 1) (typeArguments? type) fun types => leaves (typeNodes types) := by
  intro mode s hs
  unfold typeArguments?
  rw [ensures_bind, ensures_isAtSameLine, ensures_ite]
  split
  · rename_i hk
    simp only [Bool.and_eq_true, beq_iff_eq] at hk
    exact (typeArguments_sound h hs hk.1).mono fun _ _ h => h.1
  · exact .refl s

theorem nullableMark_sound : Sound n nullableMark fun _ => [] := by
  intro mode s hs
  unfold nullableMark
  rw [ensures_bind, ensures_isAtSameLine, ensures_ite]
  split
  · rename_i hk
    simp only [Bool.and_eq_true, beq_iff_eq] at hk
    exact advance_plain_then (.refl s) (hs.mono (Nat.le_succ n)) (hk.1 ▸ Kind.plain_mark _)
      fun s₁ hr _ _ _ => hr
  · exact .refl s

theorem leaves_regular (existential nullable : Bool) (name : DottedName)
    (arguments : List TypeExpr) :
    leaves [TypeExpr.node (.regular existential name arguments nullable)] =
      nameLeaves name.parts ++ leaves (typeNodes arguments) := by
  rw [TypeExpr.node, leaves_cons, leaves_cons_node, leaves_pathNode]
  simp [Label.leaf?]

theorem regularType_sound (h : Sound n type typeLeaves) :
    Sound (n + 1) (regularType type) typeLeaves := by
  intro mode s hs
  unfold regularType
  refine (accept_sound (Kind.plain_keyword .exist)).then (.refl s) hs
    fun existential s₁ hr hs₁ => ?_
  refine dottedName_sound.then hr hs₁ fun name s₂ hr hs₂ => ?_
  cases name with
  | none => exact hr
  | some name =>
    refine (typeArguments?_sound h).then hr hs₂ fun arguments s₃ hr hs₃ => ?_
    refine nullableMark_sound.then hr hs₃ fun nullable s₄ hr _ => ?_
    rw [ensures_pure, typeLeaves, typeNode?, leaves_regular]
    simpa using hr

theorem typeLeaves_parenthesized (inner : Option TypeExpr) :
    typeLeaves (inner.map .parenthesized) = typeLeaves inner := by
  cases inner with
  | none => rfl
  | some t => simp [typeLeaves, typeNode?, TypeExpr.node, Label.leaf?]

/-- **Types are read soundly**, with one more token to go than the types inside them. -/
theorem typeExpr_sound (h : Sound n type typeLeaves) :
    Sound (n + 1) (typeExpr type) typeLeaves := by
  intro mode s hs
  unfold typeExpr
  rw [ensures_bind, ensures_kind]
  split
  · rename_i hk
    refine advance_plain_then (.refl s) hs (hk ▸ Kind.plain_mark _) fun s₁ hr hs₁ _ _ => ?_
    refine h.inBrackets.then hr hs₁ fun inner s₂ hr hs₂ => ?_
    refine (expectUnit_sound (Kind.plain_mark .rightParen)).then hr hs₂ fun _ s₃ hr _ => ?_
    rw [ensures_pure, typeLeaves_parenthesized]
    simpa using hr
  · rename_i hk
    exact advance_plain_then (.refl s) hs (hk ▸ Kind.plain_keyword _) fun s₁ hr _ _ _ => hr
  · rename_i hk
    exact advance_plain_then (.refl s) hs (hk ▸ Kind.plain_keyword _) fun s₁ hr _ _ _ => hr
  · exact regularType_sound h hs
  · exact regularType_sound h hs
  · exact (complain_sound (n := n + 1) _).then (.refl s) hs fun _ s₁ hr _ => hr

end Yurin.Parser
