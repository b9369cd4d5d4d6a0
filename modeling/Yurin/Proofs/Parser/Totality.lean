import Yurin.Proofs.Parser.Declarations
import Yurin.Proofs.Parser.Stream

/-!
# The parser is total

Reading a file from any list of tokens is a run over its significant tokens that ends on the first
end of input: no loop and no nesting reaches its bound, and every token before the end of input was
either matched or skipped.
-/

namespace Yurin.Parser

variable {n : Nat} {P : Productions} {mode : LineMode} {s : State}

/-! ## The grammar -/

theorem grammar_sound (hP : P.Sound n) : (grammar P).Sound (n + 1) where
  type := typeExpr_sound hP.type
  expression := expression_sound hP
  block := block_sound hP
  declaration := declaration_sound hP

/-- No state is ready for no tokens at all. -/
theorem not_ready_zero (hs : Ready 0 s) : False := Nat.not_lt_zero _ hs.short

/-- **Productions nested `depth` deep are sound with less than `depth` tokens to go.** -/
theorem grammarUpTo_sound (depth : Nat) : (grammarUpTo depth).Sound depth := by
  induction depth with
  | zero =>
    exact
      { type := fun _ _ hs => (not_ready_zero hs).elim
        expression := fun _ _ hs => (not_ready_zero hs).elim
        block := fun _ _ hs => (not_ready_zero hs).elim
        declaration := fun _ _ hs => (not_ready_zero hs).elim }
  | succ depth ih => exact grammar_sound ih

/-! ## Files -/

theorem packageHeader?_sound :
    Sound n packageHeader? fun h => leaves (h.toList.map PackageHeader.node) := by
  intro mode s hs
  unfold packageHeader?
  rw [ensures_bind, ensures_isAt, ensures_ite]
  split
  · rename_i hk
    rw [beq_iff_eq] at hk
    refine advance_plain_then (.refl s) (hs.mono (Nat.le_succ n)) (hk ▸ Kind.plain_keyword _)
      fun s₁ hr hs₁ _ _ => ?_
    refine dottedName_sound.then hr hs₁ fun name s₂ hr _ => ?_
    rw [ensures_pure]
    cases name with
    | none => exact hr
    | some name => simpa [PackageHeader.node, Label.leaf?] using hr
  · exact .refl s

/-- The leaves of the name in a header. -/
theorem leaves_headerName (name : Option DottedName) :
    leaves (name.toList.map DottedName.headerNode) =
      nameLeaves (name.elim [] DottedName.parts) := by
  cases name with
  | none => rfl
  | some name => exact leaves_headerNode name

theorem leaves_importHeader (h : ImportHeader) :
    leaves [h.node] = nameLeaves (h.name.elim [] DottedName.parts) ++
      nameLeaves h.renamed.toList := by
  simp [ImportHeader.node, Label.leaf?, leaves_headerName]

theorem importHeader_sound :
    SoundFrom (n + 1) Kind.Plain importHeader fun h => leaves [h.node] := by
  simp only [leaves_importHeader]
  refine .of_advance (fun _ hk => hk) fun keyword _ mode s hs => ?_
  refine dottedName_sound.then (.refl s) hs fun name s₁ hr hs₁ => ?_
  rw [List.nil_append] at hr
  rw [ensures_bind, ensures_isAt, ensures_bind, ensures_nextKind, ensures_ite]
  split
  · rename_i hk
    simp only [Bool.and_eq_true, beq_iff_eq] at hk
    refine advance_plain_then hr (hs₁.mono (Nat.le_succ n)) (hk.1 ▸ Kind.plain_mark _)
      fun s₂ hr hs₂ _ hcur => ?_
    refine advance_plain_then hr (hs₂.mono (Nat.le_succ n)) (hcur ▸ hk.2 ▸ Kind.plain_mark _)
      fun s₃ hr _ _ _ => ?_
    rw [ensures_pure]
    simpa using hr
  refine (accept_sound (Kind.plain_keyword .as)).then hr hs₁ fun found s₂ hr hs₂ => ?_
  rw [List.append_nil] at hr
  rw [ensures_ite]
  split
  · exact expectIdentifier_sound.then hr hs₂ fun renamed s₃ hr _ => hr
  · rw [ensures_pure]
    simpa using hr

theorem importStep_sound : SoundStep n importStep (fun h => leaves [h.node]) fun _ => True := by
  intro mode s hs
  unfold importStep
  rw [ensures_bind, ensures_isAt, ensures_ite]
  split
  · rename_i hk
    rw [beq_iff_eq] at hk
    rw [ensures_bind]
    refine (importHeader_sound (hs.mono (Nat.le_succ n)) (hk ▸ Kind.plain_keyword _)).mono
      fun h s₁ ⟨hr, hlt⟩ => ?_
    rw [ensures_pure]
    exact ⟨by simpa [Step.found] using hr, fun _ => hlt, nofun⟩
  · exact SoundStep.stop_of_reads (.refl s)

/-- The declarations of a file end only at the end of input. -/
theorem declarationStep_sound (hP : P.Sound n) :
    SoundStep n (declarationStep P) (fun d => leaves [d.node])
      fun s => s.current.token.kind = .eof := by
  intro mode s hs
  unfold declarationStep
  rw [ensures_bind, ensures_isAt, ensures_ite]
  split
  · rename_i hk
    exact ⟨.refl s, nofun, fun _ => beq_iff_eq.mp hk⟩
  · rename_i hk
    have hne : ¬ s.current.token.kind = .eof := by simpa using hk
    refine (progress_ensures .declaration endsDeclaration hP.declaration hs hne).mono
      fun found s₁ ⟨hr, hmore, hlt⟩ => ?_
    exact ⟨hr, fun _ => hlt, fun h => by rw [hmore] at h; cases h⟩

/-- A file is read soundly, up to the end of input. -/
theorem file_ensures (hP : P.Sound n) (hs : Ready n s) :
    Ensures (file P) mode s fun f s' =>
      Reads s (leaves [f.node]) s' ∧ s'.current.token.kind = .eof := by
  unfold file
  refine packageHeader?_sound.then (.refl s) hs fun package s₁ hr hs₁ => ?_
  refine (collect_sound importStep_sound).then hr hs₁ fun imports s₂ hr hs₂ => ?_
  rw [ensures_bind]
  refine (collect_ensures (declarationStep_sound hP) hs₂).mono fun ds s₃ ⟨hr₃, heof⟩ => ?_
  rw [ensures_pure]
  refine ⟨?_, heof⟩
  simpa [SourceFile.node, Label.leaf?, leaves_map, declarationNodes_eq] using hr.trans hr₃

end Yurin.Parser

namespace Yurin

namespace Parser

/-- Where there are tokens, the parser starts before all of them. -/
theorem State.start_ahead {stream : Significant} (h : stream.lexemes ≠ []) :
    (State.start stream).ahead = stream.lexemes ∧ (State.start stream).overrun = false ∧
      (State.start stream).consumed = 0 := by
  unfold State.start
  split
  · contradiction
  · rename_i h
    exact ⟨h.symm, rfl, rfl⟩

theorem State.start_of_eof {stream : Significant} (h : ∃ l ∈ stream.lexemes, l.token.kind = .eof) :
    (State.start stream).ahead = stream.lexemes ∧ (State.start stream).overrun = false ∧
      (State.start stream).consumed = 0 := by
  obtain ⟨l, hl, -⟩ := h
  exact start_ahead (List.ne_nil_of_mem hl)

/-- The parser starts with depth enough for all tokens. -/
theorem State.start_ready {stream : Significant} (h : ∃ l ∈ stream.lexemes, l.token.kind = .eof) :
    Ready (stream.lexemes.length + 1) (State.start stream) := by
  obtain ⟨ha, -, -⟩ := start_of_eof h
  refine ⟨?_, ?_⟩
  · rw [State.Closed, ha]
    exact h
  · rw [← ha, State.ahead, List.length_cons]
    omega

/-- The parser starts with a complaint about each unrecognised token. -/
theorem State.start_complaints (stream : Significant) :
    (State.start stream).complaints =
      (stream.unrecognized.map fun t => ⟨t, .unrecognized⟩).reverse := by
  unfold State.start
  split <;> rfl

theorem State.start_calm (stream : Significant) : (State.start stream).recovering = false := by
  unfold State.start
  split <;> rfl

/-- **Reading a file** from tokens with an end of input among them: a run that finds the leaves of
the file and ends on an end of input. -/
theorem readFile_reads {stream : Significant} (h : ∃ l ∈ stream.lexemes, l.token.kind = .eof) :
    Reads (.start stream) (leaves [(readFile stream).1.node]) (readFile stream).2 ∧
      (readFile stream).2.current.token.kind = .eof := by
  have hfile : Ensures (file (grammarUpTo (stream.lexemes.length + 1))) .significant
      (State.start stream) fun f s' =>
        Reads (.start stream) (leaves [f.node]) s' ∧ s'.current.token.kind = .eof :=
    file_ensures (grammarUpTo_sound _) (State.start_ready h)
  unfold readFile
  exact hfile

/-- What a run from the start has consumed is a part of the stream, and the parser stands behind
it. -/
theorem Run.position {stream : Significant} {events : List Event} {s : State}
    (h : ∃ l ∈ stream.lexemes, l.token.kind = .eof) (run : Run (.start stream) events s) :
    s.consumed < stream.lexemes.length ∧ s.ahead = stream.lexemes.drop s.consumed ∧
      s.overrun = false := by
  obtain ⟨ha, hover, hzero⟩ := State.start_of_eof h
  have hahead := run.ahead_eq
  have hcount := run.consumed_eq
  rw [ha] at hahead
  rw [hzero, Nat.zero_add] at hcount
  refine ⟨?_, ?_, run.overrun_eq.trans hover⟩
  · rw [hahead, hcount, List.length_append, State.ahead, List.length_cons]
    omega
  · rw [hahead, hcount, List.drop_left]

/-- A run from the start to an end of input has consumed all that lies before the first one. -/
theorem Run.completes {stream : Significant} {events : List Event} {final : State}
    (h : ∃ l ∈ stream.lexemes, l.token.kind = .eof) (run : Run (.start stream) events final)
    (heof : final.current.token.kind = .eof) :
    stream.lexemes = consumedBy events ++ final.ahead ∧
      final.consumed = stream.lexemes.findIdx (·.token.kind == .eof) := by
  obtain ⟨ha, -, hzero⟩ := State.start_of_eof h
  have hsplit := run.ahead_eq
  rw [ha] at hsplit
  have hopen : ∀ l ∈ consumedBy events, (l.token.kind == .eof) = false := fun l hl => by
    simpa using run.open_of_mem hl
  refine ⟨hsplit, ?_⟩
  rw [run.consumed_eq, hzero, hsplit, List.findIdx_append, List.findIdx_eq_length.mpr hopen]
  simp [State.ahead, List.findIdx_cons, heof]

/-- **The parser is total.** From any tokens it reads a file by a run that goes past no bound. The
run ends on the first end of input among the significant tokens, all tokens before it were matched
or skipped, and at every point of the run the parser stands on a token of the stream. -/
theorem readFile_total (tokens : List Token) :
    let stream := Significant.ofTokens false none tokens
    let final := (readFile stream).2
    ∃ events, Run (.start stream) events final ∧ final.overrun = false ∧
      stream.lexemes = consumedBy events ++ final.ahead ∧ final.current.token.kind = .eof ∧
      final.consumed = stream.lexemes.findIdx (·.token.kind == .eof) ∧
      ∀ before after s, events = before ++ after → Run (.start stream) before s →
        s.consumed < stream.lexemes.length ∧ s.ahead = stream.lexemes.drop s.consumed ∧
          s.overrun = false := by
  intro stream
  have hclosed : ∃ l ∈ stream.lexemes, l.token.kind = .eof :=
    Significant.ofTokens_closed tokens false none (by simp)
  obtain ⟨⟨events, run, -, -⟩, heof⟩ := readFile_reads hclosed
  generalize (readFile stream).2 = final at run heof ⊢
  obtain ⟨hsplit, hfirst⟩ := run.completes hclosed heof
  have hbounds := (run.position hclosed).2.2
  refine ⟨events, run, hbounds, hsplit, heof, hfirst, ?_⟩
  intro before after s _ hrun
  exact hrun.position hclosed

end Parser

end Yurin
