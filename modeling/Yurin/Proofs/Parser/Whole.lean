import Yurin.Proofs.Parser.Totality
import Yurin.Proofs.Tree.Whole

/-!
# Without a complaint nothing is missing

The tree has gaps where the parser recovered from an error: a name, a type or a whole declaration
that the grammar asks for and that was not there. Not every gap is reported, since the parser is
silent while it recovers. But it recovers only after a complaint, so a parse without complaints has
no gaps.

`Gathers s kept good s'` says this of a part of a parse. The parser gets from `s` to `s'` by a run,
and if it does not recover in `s` and the run makes no complaint, then it does not recover in `s'`,
the tokens `kept` are among those consumed, in this order, and `good` holds. These statements chain:
what holds of the parts of a phrase holds of the phrase.

`collect_whole` and `braced_whole` say it of the loops that the parsers of declarations share.
-/

namespace Yurin.Parser

variable {α β : Type} {n : Nat} {mode : LineMode} {s s₀ s' s'' : State} {P : Productions}

/-! ## Parts of a parse -/

/-- **The parser gets from `s` to `s'`**, and when it does so without complaints it consumes the
tokens `kept` in this order, and `good` holds. -/
def Gathers (s : State) (kept : List Token) (good : Prop) (s' : State) : Prop :=
  ∃ events, Run s events s' ∧ (s.recovering = false → complaintsOf events = [] →
    kept.Sublist ((consumedBy events).map Lexeme.token) ∧ good)

namespace Gathers

variable {kept kept' : List Token} {good good' : Prop}

theorem refl (s : State) : Gathers s [] True s := ⟨[], .nil s, fun _ _ => ⟨.slnil, trivial⟩⟩

theorem trans (h : Gathers s kept good s') (h' : Gathers s' kept' good' s'') :
    Gathers s (kept ++ kept') (good ∧ good') s'' := by
  obtain ⟨es, run, hes⟩ := h
  obtain ⟨es', run', hes'⟩ := h'
  refine ⟨es ++ es', run.append run', fun hs hc => ?_⟩
  rw [complaintsOf_append, List.append_eq_nil_iff] at hc
  obtain ⟨hsub, hgood⟩ := hes hs hc.1
  obtain ⟨hsub', hgood'⟩ := hes' (run.calm hs hc.1) hc.2
  rw [consumedBy_append, List.map_append]
  exact ⟨hsub.append hsub', hgood, hgood'⟩

theorem imp (h : Gathers s kept good s') (hsub : kept'.Sublist kept) (himp : good → good') :
    Gathers s kept' good' s' := by
  obtain ⟨es, run, hes⟩ := h
  refine ⟨es, run, fun hs hc => ?_⟩
  obtain ⟨hsub', hgood⟩ := hes hs hc
  exact ⟨hsub.trans hsub', himp hgood⟩

/-- Of a part of a parse with a complaint in it, nothing is asked. -/
theorem elim (h : Gathers s kept False s') : Gathers s kept' good' s' := by
  obtain ⟨es, run, hes⟩ := h
  exact ⟨es, run, fun hs hc => (hes hs hc).2.elim⟩

theorem consumed_le (h : Gathers s kept good s') : s.consumed ≤ s'.consumed := by
  obtain ⟨es, run, -⟩ := h
  rw [run.consumed_eq]
  omega

theorem ready (h : Gathers s kept good s') (hs : Ready n s) : Ready n s' := by
  obtain ⟨es, run, -⟩ := h
  have := run.rest_length
  have := hs.short
  exact ⟨run.closed hs.closed, by omega⟩

end Gathers

/-- The names that events give are among the consumed tokens. -/
theorem namesOf_leavesOf (es : List Event) :
    (namesOf (leavesOf es)).Sublist ((consumedBy es).map Lexeme.token) := by
  induction es with
  | nil => exact .slnil
  | cons e es ih =>
    cases e with
    | matched l =>
      have hleaf : (namesOf l.token.leaf?.toList).Sublist [l.token] := by
        unfold Token.leaf?
        split
        · exact .refl _
        · split <;> exact List.nil_sublist _
      have hcons : leavesOf (.matched l :: es) = l.token.leaf?.toList ++ leavesOf es := by
        rw [← leavesOf_matched, ← leavesOf_append, List.singleton_append]
      rw [hcons, namesOf_append]
      exact hleaf.append ih
    | skipped l => exact ih.cons _
    | complained c => exact ih

theorem Reads.gathers {found : List Leaf} (h : Reads s found s') :
    Gathers s (namesOf found) True s' := by
  obtain ⟨es, run, -, hnames⟩ := h
  exact ⟨es, run, fun _ _ => ⟨hnames ▸ namesOf_leavesOf es, trivial⟩⟩

/-- A complaint is made, unless the parser recovers already. -/
theorem State.gathers_complain (s : State) (cause : Cause) :
    Gathers s [] False (s.complain cause) := by
  unfold State.complain
  split
  · rename_i hrec
    exact ⟨[], .nil s, fun hs _ => by simp [hs] at hrec⟩
  · rename_i hrec
    refine ⟨_, .single (.complained s cause (by simpa using hrec)), fun _ hc => ?_⟩
    simp [complaintsOf, Event.complaint?] at hc

/-- Where the parser complains, nothing more is asked. -/
theorem Gathers.complain {kept kept' : List Token} {good good' : Prop}
    (h : Gathers s kept good s') (cause : Cause) : Gathers s kept' good' (s'.complain cause) :=
  ((h.trans (s'.gathers_complain cause)).imp (.refl _) And.right).elim

/-! ## Parsers -/

theorem Ensures.and {p : Parser α} {Q R : α → State → Prop} (hQ : Ensures p mode s Q)
    (hR : Ensures p mode s R) : Ensures p mode s fun a s' => Q a s' ∧ R a s' :=
  ⟨hQ, hR⟩

/-- **The parser gathers what its result holds**, with less than `n` tokens to go. -/
def Whole (n : Nat) (p : Parser α) (kept : α → List Token) (good : α → Prop) : Prop :=
  ∀ ⦃mode : LineMode⦄ ⦃s : State⦄, Ready n s →
    Ensures p mode s fun a s' => Gathers s (kept a) (good a) s'

/-- Runs a parser as the next part of a larger one, which has gathered `k` so far. -/
theorem Whole.then {p : Parser α} {kept : α → List Token} {good : α → Prop}
    (hp : Whole n p kept good) {f : α → Parser β} {Q : β → State → Prop} {k : List Token} {g : Prop}
    (hg : Gathers s₀ k g s) (hs : Ready n s)
    (hf : ∀ a s', Gathers s₀ (k ++ kept a) (g ∧ good a) s' → Ready n s' →
      Ensures (f a) mode s' Q) :
    Ensures (p >>= f) mode s Q := by
  rw [ensures_bind]
  exact (hp hs).mono fun a s' h => hf a s' (hg.trans h) (h.ready hs)

/-- A parser whose result holds names that are kept. -/
theorem Sound.whole {p : Parser α} {view : α → List Leaf} (hp : Sound n p view) :
    Whole n p (fun a => namesOf (view a)) fun _ => True :=
  fun _ _ hs => (hp hs).mono fun _ _ h => h.gathers

/-- Runs a parser whose result is not looked at. -/
theorem Sound.pass {p : Parser α} {view : α → List Leaf} (hp : Sound n p view)
    {f : α → Parser β} {Q : β → State → Prop} {k : List Token} {g : Prop}
    (hg : Gathers s₀ k g s) (hs : Ready n s)
    (hf : ∀ a s', Gathers s₀ k g s' → Ready n s' → Ensures (f a) mode s' Q) :
    Ensures (p >>= f) mode s Q :=
  hp.whole.then hg hs fun a s' hg' hs' =>
    hf a s' (hg'.imp (List.sublist_append_left _ _) And.left) hs'

/-- Matching the current token, which is kept. One token less is left to go. -/
theorem advance_keep_then {k : List Token} {g : Prop} (hg : Gathers s₀ k g s)
    (hs : Ready (n + 1) s) (hk : s.current.token.kind ≠ .eof) {f : Token → Parser β}
    {Q : β → State → Prop}
    (hf : ∀ s', Gathers s₀ (k ++ [s.current.token]) g s' → Ready n s' → s.consumed < s'.consumed →
      s'.current = s.rest.headD s.current → Ensures (f s.current.token) mode s' Q) :
    Ensures (advance >>= f) mode s Q := by
  refine advance_then hs.closed hk fun s' run => ?_
  obtain ⟨hr, hlt⟩ := run.reads_matched
  have hone : Gathers s [s.current.token] True s' := ⟨_, run, fun _ _ => ⟨.refl _, trivial⟩⟩
  exact hf s' ((hg.trans hone).imp (.refl _) And.left) (hs.pred hr hlt) hlt run.current_eq

/-- Matching the current token. One token less is left to go. -/
theorem advance_drop_then {k : List Token} {g : Prop} (hg : Gathers s₀ k g s)
    (hs : Ready (n + 1) s) (hk : s.current.token.kind ≠ .eof) {f : Token → Parser β}
    {Q : β → State → Prop}
    (hf : ∀ s', Gathers s₀ k g s' → Ready n s' → s.consumed < s'.consumed →
      s'.current = s.rest.headD s.current → Ensures (f s.current.token) mode s' Q) :
    Ensures (advance >>= f) mode s Q :=
  advance_keep_then hg hs hk fun s' hg' hs' =>
    hf s' (hg'.imp (List.sublist_append_left _ _) id) hs'

/-- Where the parser recovers it has complained. -/
theorem recoverTo_gathers (due : Expectation) (stop : Lexeme → Bool) (hs : Ready n s)
    (hk : s.current.token.kind ≠ .eof) :
    Ensures (recoverTo due stop) mode s fun _ s' => Gathers s [] False s' := by
  unfold recoverTo
  have hc := s.gathers_complain (.extraneous due)
  have hk' := s.complain_current (.extraneous due) ▸ hk
  obtain ⟨hr₁, -, hrec⟩ := State.reads_next (hc.ready hs).closed hk' (s.complain_recovering _)
  have hg := hc.trans hr₁.gathers
  obtain ⟨hr₂, -⟩ :=
    State.reads_skipUntil stop _ (hg.ready hs).closed (Nat.lt_succ_self _) hrec
  rw [ensures_bind, ensures_complain, ensures_bind, ensures_skip, ensures_skipUntil]
  exact (hg.trans hr₂.gathers).imp (List.nil_sublist _) fun h => h.1.1

theorem expect_whole {k : Kind} (hk : k ≠ .eof) :
    Whole n (expect k) (fun _ => []) fun t => t.isSome = true := by
  intro mode s hs
  unfold expect
  rw [ensures_bind, ensures_isAt, ensures_ite]
  split
  · rename_i h
    rw [beq_iff_eq] at h
    exact advance_drop_then (.refl s) (hs.mono (Nat.le_succ n)) (h ▸ hk)
      fun s' hg _ _ _ => hg.imp (.refl _) fun _ => rfl
  · exact (Gathers.refl s).complain _

theorem expectIdentifier_whole :
    Whole n expectIdentifier (fun _ => []) fun i => i.isSome = true := by
  intro mode s hs
  refine (expect_whole (by simp)).then (.refl s) hs fun t s' hg _ => ?_
  rw [ensures_pure]
  exact hg.imp (.refl _) fun h => Option.isSome_map.trans h.2

/-! ## Loops -/

/-- One run of a loop gathers its item, and consumes a token when it asks to go on. -/
def WholeStep (n : Nat) (step : Parser (Step α)) (kept : α → List Token) (good : α → Prop) : Prop :=
  ∀ ⦃mode : LineMode⦄ ⦃s : State⦄, Ready n s → Ensures step mode s fun found s' =>
    Gathers s (found.item.toList.flatMap kept) (∀ a ∈ found.item, good a) s' ∧
      (found.more = true → s.consumed < s'.consumed)

section Loops

variable {step : Parser (Step α)} {kept : α → List Token} {good : α → Prop}

theorem collectUpTo_whole (h : WholeStep n step kept good) (fuel : Nat) (hs : Ready n s)
    (hf : s.rest.length < fuel) :
    Ensures (collectUpTo step fuel) mode s fun items s' =>
      Gathers s (items.flatMap kept) (∀ a ∈ items, good a) s' := by
  induction fuel generalizing s with
  | zero => omega
  | succ fuel ih =>
    unfold collectUpTo
    rw [ensures_bind]
    refine (h hs).mono fun found s₁ hfound => ?_
    obtain ⟨hg, hmore⟩ := hfound
    rw [ensures_ite]
    split
    · rename_i hm
      have hlt := hmore hm
      obtain ⟨es, run, -⟩ := id hg
      have htot := run.rest_length
      have hcount := run.consumed_eq
      rw [ensures_bind]
      refine (ih (hg.ready hs) (by omega)).mono fun items s₂ hg₂ => ?_
      rw [ensures_pure, List.flatMap_append]
      refine (hg.trans hg₂).imp (.refl _) fun hitems a ha => ?_
      rcases List.mem_append.mp ha with ha | ha
      · exact hitems.1 a (Option.mem_toList.mp ha)
      · exact hitems.2 a ha
    · rw [ensures_pure]
      exact hg.imp (.refl _) fun hitem a ha => hitem a (Option.mem_toList.mp ha)

/-- **A loop gathers what its runs do.** -/
theorem collect_whole (h : WholeStep n step kept good) :
    Whole n (collect step) (·.flatMap kept) fun items => ∀ a ∈ items, good a := by
  intro mode s hs
  unfold collect
  rw [ensures_bind, ensures_get]
  exact collectUpTo_whole h _ hs (Nat.lt_succ_self _)

/-- Ends a run of a loop that found nothing and stops. -/
theorem WholeStep.stop_of_gathers {k : List Token} {g : Prop} (h : Gathers s k g s') :
    Gathers s ((Step.stop : Step α).item.toList.flatMap kept)
        (∀ a ∈ (Step.stop : Step α).item, good a) s' ∧
      ((Step.stop : Step α).more = true → s.consumed < s'.consumed) :=
  ⟨h.imp (List.nil_sublist _) fun _ => nofun, nofun⟩

/-- A sequence with an item that consumes nothing has a complaint in it. -/
theorem progress_whole {item : Parser (Option α)} (due : Expectation) (ends : Lexeme → Bool)
    (h : Whole n item (fun o => o.toList.flatMap kept) fun o => ∀ a ∈ o, good a) (hs : Ready n s)
    (hk : s.current.token.kind ≠ .eof) :
    Ensures (progress item due ends) mode s fun found s' =>
      Gathers s (found.item.toList.flatMap kept) (∀ a ∈ found.item, good a) s' ∧
        (found.more = true → s.consumed < s'.consumed) := by
  unfold progress
  rw [ensures_bind, ensures_consumed, ensures_bind]
  refine (h hs).mono fun found s₁ hg => ?_
  rw [ensures_bind, ensures_consumed, ensures_ite]
  have hle := hg.consumed_le
  split
  · rename_i hc
    have hc' : s₁.consumed = s.consumed := by simpa using hc
    have hk₁ : s₁.current.token.kind ≠ .eof := by
      obtain ⟨es, run, -⟩ := hg
      have hes : consumedBy es = [] :=
        List.eq_nil_of_length_eq_zero (by have := run.consumed_eq; omega)
      have hahead := run.ahead_eq
      rw [hes, List.nil_append, State.ahead, State.ahead] at hahead
      exact (List.cons.inj hahead).1 ▸ hk
    rw [ensures_bind]
    have hrecover : Ensures (recoverTo due ends) mode s₁ _ :=
      (recoverTo_gathers due ends (hg.ready hs) hk₁).and
        (recoverTo_ensures due ends (hg.ready hs).closed hk₁)
    refine hrecover.mono fun _ s₂ hs₂ => ?_
    obtain ⟨hg₂, -, hlt⟩ := hs₂
    rw [ensures_pure]
    exact ⟨((hg.trans hg₂).imp (.refl _) And.right).elim, fun _ => by omega⟩
  · rename_i hc
    rw [beq_iff_eq] at hc
    rw [ensures_pure]
    exact ⟨hg, fun _ => by omega⟩

theorem bracedStep_whole {item : Parser (Option α)} (due : Expectation) (ends : Lexeme → Bool)
    (h : Whole n item (fun o => o.toList.flatMap kept) fun o => ∀ a ∈ o, good a) :
    WholeStep n (bracedStep item due ends) kept good := by
  intro mode s hs
  unfold bracedStep
  rw [ensures_bind, ensures_isAtAny, ensures_ite]
  split
  · exact WholeStep.stop_of_gathers (.refl s)
  · rename_i hk
    have hk' : s.current.token.kind ≠ .eof := by intro h; simp [h] at hk
    rw [ensures_bind]
    refine (accept_ensures (Kind.plain_mark .semicolon) hs).mono fun b s₁ ⟨hr, hlt, heq⟩ => ?_
    rw [ensures_ite]
    split
    · rename_i hb
      exact ⟨hr.gathers.imp (List.nil_sublist _) fun _ => nofun, fun _ => hlt hb⟩
    · rename_i hb
      rw [heq (by simpa using hb)]
      exact progress_whole due ends h hs hk'

/-- The items after an opening brace. -/
theorem braced_whole {item : Parser (Option α)} (due : Expectation) (ends : Lexeme → Bool)
    (h : Whole n item (fun o => o.toList.flatMap kept) fun o => ∀ a ∈ o, good a) :
    Whole n (braced item due ends) (·.flatMap kept) fun items => ∀ a ∈ items, good a := by
  intro mode s hs
  unfold braced
  rw [ensures_bind, ensures_inBraces]
  refine (collect_whole (bracedStep_whole due ends h) hs).mono fun items s₁ hg => ?_
  exact (expectUnit_sound (Kind.plain_mark .rightBrace)).pass hg (hg.ready hs) fun _ s₂ hg _ => hg

end Loops

end Yurin.Parser
