import Yurin.Proofs.Parser.Reads

/-!
# Sound parsers

`Sound n p view`: from every state that is `Ready n`, the parser `p` reads the leaves that `view`
finds in its result. The lemmas of this file are about the building blocks: single tokens, error
recovery and loops. `collect_sound` is where the bound of a loop is discharged: every run of a step
that asks to go on consumes a token, so the loop ends before its bound.
-/

namespace Yurin.Parser

variable {α β : Type} {n : Nat} {mode : LineMode} {s : State}

/-- **The parser reads what its result holds**, with less than `n` tokens to go. -/
def Sound (n : Nat) (p : Parser α) (view : α → List Leaf) : Prop :=
  ∀ ⦃mode : LineMode⦄ ⦃s : State⦄, Ready n s → Ensures p mode s fun a s' => Reads s (view a) s'

/-- The parser is sound on tokens of the kinds `start`, and consumes at least the first. -/
def SoundFrom (n : Nat) (start : Kind → Prop) (p : Parser α) (view : α → List Leaf) : Prop :=
  ∀ ⦃mode : LineMode⦄ ⦃s : State⦄, Ready n s → start s.current.token.kind →
    Ensures p mode s fun a s' => Reads s (view a) s' ∧ s.consumed < s'.consumed

/-- One run of a loop is sound: it reads its item, it consumes a token when it asks to go on, and
where it ends the loop `stop` holds. -/
def SoundStep (n : Nat) (step : Parser (Step α)) (view : α → List Leaf) (stop : State → Prop) :
    Prop :=
  ∀ ⦃mode : LineMode⦄ ⦃s : State⦄, Ready n s → Ensures step mode s fun found s' =>
    Reads s (found.item.toList.flatMap view) s' ∧
      (found.more = true → s.consumed < s'.consumed) ∧ (found.more = false → stop s')

/-- Runs a sound parser as the next part of a larger one, which has read `found` so far. -/
theorem Sound.then {p : Parser α} {view : α → List Leaf} (hp : Sound n p view) {f : α → Parser β}
    {Q : β → State → Prop} {s₀ : State} {found : List Leaf} (hr : Reads s₀ found s)
    (hs : Ready n s)
    (hf : ∀ a s', Reads s₀ (found ++ view a) s' → Ready n s' → Ensures (f a) mode s' Q) :
    Ensures (p >>= f) mode s Q := by
  rw [ensures_bind]
  exact (hp hs).mono fun a s' h => hf a s' (hr.trans h) (hs.after h)

/-- Runs a sound parser as the last part of a larger one. -/
theorem Sound.last {p : Parser α} {view : α → List Leaf} (hp : Sound n p view) {s₀ : State}
    {found : List Leaf} (hr : Reads s₀ found s) (hs : Ready n s) :
    Ensures p mode s fun a s' => Reads s₀ (found ++ view a) s' :=
  (hp hs).mono fun _ _ h => hr.trans h

theorem Sound.inBrackets {p : Parser α} {view : α → List Leaf} (hp : Sound n p view) :
    Sound n (inBrackets p) view :=
  fun _ _ hs => hp hs

/-! ## Single tokens -/

/-- An end of input that is not the current token lies behind it. -/
theorem State.Closed.exists_rest (hs : s.Closed) (hk : s.current.token.kind ≠ .eof) :
    ∃ l rest, s.rest = l :: rest := by
  obtain ⟨l, hl, hl'⟩ := hs
  cases h : s.rest with
  | nil =>
    rw [State.ahead, h, List.mem_singleton] at hl
    exact absurd (hl ▸ hl') hk
  | cons l rest => exact ⟨l, rest, rfl⟩

theorem State.next_eq {l : Lexeme} {rest : List Lexeme} (hk : s.current.token.kind ≠ .eof)
    (hr : s.rest = l :: rest) : s.next = s.moveTo l rest := by
  simp only [State.next, if_neg hk, hr, State.moveTo]

/-- Matching the current token, which is not the end of input. -/
theorem advance_then (hs : s.Closed) (hk : s.current.token.kind ≠ .eof) {f : Token → Parser β}
    {Q : β → State → Prop}
    (hf : ∀ s', Run s [.matched s.current] s' → Ensures (f s.current.token) mode s' Q) :
    Ensures (advance >>= f) mode s Q := by
  obtain ⟨l, rest, hr⟩ := hs.exists_rest hk
  have step := State.Step.matched s hk hr
  rw [← State.next_eq hk hr] at step
  exact hf _ (.single step)

theorem leavesOf_matched (l : Lexeme) : leavesOf [.matched l] = l.token.leaf?.toList := by
  cases h : l.token.leaf? <;> simp [leavesOf, Event.leaf?, h]

/-- A matched token gives its leaf. -/
theorem Run.reads_matched {s' : State} (h : Run s [.matched s.current] s') :
    Reads s s.current.token.leaf?.toList s' ∧ s.consumed < s'.consumed := by
  have hleaves := leavesOf_matched s.current
  refine ⟨⟨_, h, hleaves ▸ .refl _, by rw [hleaves]⟩, ?_⟩
  rw [h.consumed_eq]
  simp [consumedBy, Event.consumed?]

/-- After a match the parser is on the token that was next. -/
theorem Run.current_eq {s' : State} (h : Run s [.matched s.current] s') :
    s'.current = s.rest.headD s.current := by
  have ha := h.ahead_eq
  simp only [consumedBy, Event.consumed?, List.filterMap_cons, List.filterMap_nil, State.ahead,
    List.cons_append, List.nil_append, List.cons.injEq, true_and] at ha
  rw [ha, List.headD_cons]

/-- Matching a name. -/
theorem advance_name_then {s₀ : State} {found : List Leaf} (hr : Reads s₀ found s) (hs : Ready n s)
    (hk : s.current.token.kind = .identifier) {f : Token → Parser β} {Q : β → State → Prop}
    (hf : ∀ t s', Reads s₀ (found ++ [.name t]) s' → Ready n s' → s.consumed < s'.consumed →
      s'.current = s.rest.headD s.current → Ensures (f t) mode s' Q) :
    Ensures (advance >>= f) mode s Q := by
  refine advance_then hs.closed (by simp [hk]) fun s' run => ?_
  obtain ⟨h, hlt⟩ := run.reads_matched
  rw [Token.leaf?, if_pos hk] at h
  exact hf _ s' (hr.trans h) (hs.after h) hlt run.current_eq

/-- Matching a modifier. -/
theorem advance_modifier_then {s₀ : State} {found : List Leaf} (hr : Reads s₀ found s)
    (hs : Ready n s) (hk : s.current.token.kind.isModifier = true) {f : Token → Parser β}
    {Q : β → State → Prop}
    (hf : ∀ t s', Reads s₀ (found ++ [.modifier t]) s' → Ready n s' → s.consumed < s'.consumed →
      Ensures (f t) mode s' Q) :
    Ensures (advance >>= f) mode s Q := by
  have hne : s.current.token.kind ≠ .eof := by intro h; rw [h] at hk; cases hk
  have hni : s.current.token.kind ≠ .identifier := by intro h; rw [h] at hk; cases hk
  refine advance_then hs.closed hne fun s' run => ?_
  obtain ⟨h, hlt⟩ := run.reads_matched
  rw [Token.leaf?, if_neg hni, if_pos hk] at h
  exact hf _ s' (hr.trans h) (hs.after h) hlt

/-- The kinds of tokens that a parser asks for by their kind alone. -/
structure Kind.Plain (k : Kind) : Prop where
  ne_eof : k ≠ .eof
  ne_identifier : k ≠ .identifier

theorem Kind.plain_mark (m : Mark) : Kind.Plain (.mark m) := ⟨nofun, nofun⟩

theorem Kind.plain_keyword (w : Keyword) : Kind.Plain (.keyword w) := ⟨nofun, nofun⟩

/-- Matching a token that is not kept as a name. One token less is left to go. -/
theorem advance_plain_then {s₀ : State} {found : List Leaf} (hr : Reads s₀ found s)
    (hs : Ready (n + 1) s) (hk : Kind.Plain s.current.token.kind) {f : Token → Parser β}
    {Q : β → State → Prop}
    (hf : ∀ s', Reads s₀ found s' → Ready n s' → s.consumed < s'.consumed →
      s'.current = s.rest.headD s.current → Ensures (f s.current.token) mode s' Q) :
    Ensures (advance >>= f) mode s Q := by
  refine advance_then hs.closed hk.ne_eof fun s' run => ?_
  obtain ⟨h, hlt⟩ := run.reads_matched
  have h' : Reads s [] s' :=
    h.drop (List.nil_sublist _) (Token.namesOf_leaf? hk.ne_identifier).symm
  exact hf s' (by simpa using hr.trans h') (hs.pred h' hlt) hlt run.current_eq

/-- A parser that begins by matching a token is sound when the rest of it is, with one token less to
go. -/
theorem SoundFrom.of_advance {start : Kind → Prop} {f : Token → Parser α} {view : α → List Leaf}
    (hk : ∀ k, start k → Kind.Plain k) (hf : ∀ t : Token, start t.kind → Sound n (f t) view) :
    SoundFrom (n + 1) start (advance >>= f) view := by
  intro mode s hs hstart
  refine advance_plain_then (.refl s) hs (hk _ hstart) fun s₁ hr hs₁ hlt _ => ?_
  refine (hf s.current.token hstart hs₁).mono fun a s₂ hr₂ => ?_
  exact ⟨by simpa using hr.trans hr₂, Nat.lt_of_lt_of_le hlt hr₂.consumed_le⟩

/-- `accept` consumes a token exactly when it says so. -/
theorem accept_ensures {k : Kind} (hk : Kind.Plain k) (hs : Ready n s) :
    Ensures (accept k) mode s fun b s' =>
      Reads s [] s' ∧ (b = true → s.consumed < s'.consumed) ∧ (b = false → s' = s) := by
  unfold accept
  rw [ensures_bind, ensures_isAt, ensures_ite]
  split
  · rename_i h
    rw [beq_iff_eq] at h
    refine advance_plain_then (.refl s) (hs.mono (Nat.le_succ n)) (h ▸ hk) fun s' hr _ hlt _ => ?_
    exact ⟨hr, fun _ => hlt, nofun⟩
  · exact ⟨.refl s, nofun, fun _ => rfl⟩

theorem accept_sound {k : Kind} (hk : Kind.Plain k) : Sound n (accept k) fun _ => [] :=
  fun _ _ hs => (accept_ensures hk hs).mono fun _ _ h => h.1

/-! ## Complaints and recovery -/

@[simp] theorem State.complain_recovering (s : State) (cause : Cause) :
    (s.complain cause).recovering = true := by
  unfold State.complain
  split
  · assumption
  · rfl

theorem State.complain_current (s : State) (cause : Cause) :
    (s.complain cause).current = s.current := by
  unfold State.complain
  split <;> rfl

/-- A run that matches nothing finds nothing. -/
theorem Run.reads_nothing {s' : State} {es : List Event} (run : Run s es s')
    (hl : leavesOf es = []) : Reads s [] s' :=
  ⟨es, run, List.nil_sublist _, by rw [hl]⟩

/-- A complaint is an event, unless the parser is silent. -/
theorem State.reads_complain (s : State) (cause : Cause) : Reads s [] (s.complain cause) := by
  unfold State.complain
  split
  · exact .refl s
  · rename_i h
    exact (Run.single (State.Step.complained s cause (by simpa using h))).reads_nothing rfl

theorem complain_sound (cause : Cause) : Sound n (complain cause) fun _ => [] :=
  fun _ s _ => s.reads_complain cause

/-- A token that is dropped while the parser recovers gives no leaves. -/
theorem State.reads_next (hs : s.Closed) (hk : s.current.token.kind ≠ .eof)
    (hrec : s.recovering = true) :
    Reads s [] s.next ∧ s.consumed < s.next.consumed ∧ s.next.recovering = true := by
  obtain ⟨l, rest, hr⟩ := hs.exists_rest hk
  have step := State.Step.skipped s hk hr hrec
  rw [← State.next_eq hk hr] at step
  refine ⟨(Run.single step).reads_nothing rfl, ?_, ?_⟩
  · rw [step.consumed_eq]
    exact Nat.lt_succ_self _
  · rw [State.next_eq hk hr]
    exact hrec

/-- Skipping tokens while the parser recovers gives no leaves. -/
theorem State.reads_skipUntil (stop : Lexeme → Bool) (fuel : Nat) (hs : s.Closed)
    (hf : s.rest.length < fuel) (hrec : s.recovering = true) :
    Reads s [] (s.skipUntil stop fuel) ∧ (s.skipUntil stop fuel).recovering = true := by
  induction fuel generalizing s with
  | zero => omega
  | succ fuel ih =>
    unfold State.skipUntil
    split
    · exact ⟨.refl s, hrec⟩
    · rename_i h
      simp only [Bool.or_eq_true, decide_eq_true_eq, not_or] at h
      obtain ⟨hr, hlt, hrec'⟩ := State.reads_next hs h.1 hrec
      have htot := hr.total
      obtain ⟨hr', hend⟩ := ih (hr.closed hs) (by omega) hrec'
      exact ⟨hr.trans hr', hend⟩

/-- Error recovery gives no leaves and drops at least the current token. -/
theorem recoverTo_ensures (due : Expectation) (stop : Lexeme → Bool) (hs : s.Closed)
    (hk : s.current.token.kind ≠ .eof) :
    Ensures (recoverTo due stop) mode s fun _ s' => Reads s [] s' ∧ s.consumed < s'.consumed := by
  unfold recoverTo
  have hr := s.reads_complain (.extraneous due)
  have hk' := s.complain_current (.extraneous due) ▸ hk
  obtain ⟨hr₁, hlt, hrec⟩ := State.reads_next (hr.closed hs) hk' (s.complain_recovering _)
  have hr₁ := hr.trans hr₁
  obtain ⟨hr₂, -⟩ := State.reads_skipUntil stop _ (hr₁.closed hs) (Nat.lt_succ_self _) hrec
  rw [ensures_bind, ensures_complain, ensures_bind, ensures_skip, ensures_skipUntil]
  refine ⟨hr₁.trans hr₂, ?_⟩
  calc s.consumed ≤ (s.complain (.extraneous due)).consumed := hr.consumed_le
    _ < (s.complain (.extraneous due)).next.consumed := hlt
    _ ≤ _ := hr₂.consumed_le

theorem expect_sound {k : Kind} (hk : Kind.Plain k) : Sound n (expect k) fun _ => [] := by
  intro mode s hs
  unfold expect
  rw [ensures_bind, ensures_isAt, ensures_ite]
  split
  · rename_i h
    rw [beq_iff_eq] at h
    exact advance_plain_then (.refl s) (hs.mono (Nat.le_succ n)) (h ▸ hk) fun s' hr _ _ _ => hr
  · exact (complain_sound (n := n) _).then (.refl s) hs fun _ s' hr _ => hr

theorem expectUnit_sound {k : Kind} (hk : Kind.Plain k) : Sound n (expect_ k) fun _ => [] :=
  fun _ s hs => (expect_sound hk).then (.refl s) hs fun _ _ hr _ => hr

theorem expectIdentifier_sound :
    Sound n expectIdentifier fun i => nameLeaves i.toList := by
  intro mode s hs
  unfold expectIdentifier expect
  rw [ensures_bind, ensures_bind, ensures_isAt, ensures_ite]
  split
  · rename_i h
    exact advance_name_then (.refl s) hs (by simpa using h) fun t s' hr _ _ _ => hr
  · exact (complain_sound (n := n) _).then (.refl s) hs fun _ s' hr _ => hr

/-! ## Parts that may be absent -/

theorem SoundFrom.weaken {start : Kind → Prop} {p : Parser α} {view : α → List Leaf}
    (hp : SoundFrom (n + 1) start p view) : SoundFrom n start p view :=
  fun _ _ hs hk => hp (hs.mono (Nat.le_succ n)) hk

/-- A part that is read where a token of the kind `k` stands, with another parser for the places
where none does. -/
theorem SoundFrom.whenAt {k : Kind} {p : Parser α} {view : α → List Leaf}
    (hp : SoundFrom n (· = k) p view) {f : α → β} {q : Parser β} {view' : β → List Leaf}
    (hf : ∀ a, view' (f a) = view a) (hq : Sound n q view') :
    Sound n (do if ← isAt k then return f (← p) else q) view' := by
  intro mode s hs
  rw [ensures_bind, ensures_isAt, ensures_ite]
  split
  · rename_i hk
    rw [ensures_bind]
    refine (hp hs (beq_iff_eq.mp hk)).mono fun a s' ⟨hr, _⟩ => ?_
    rw [ensures_pure, hf]
    exact hr
  · exact hq hs

theorem pure_sound {a : α} {view : α → List Leaf} (h : view a = []) : Sound n (pure a) view := by
  intro mode s _
  rw [ensures_pure, h]
  exact .refl s

/-! ## Loops -/

section Loops

variable {view : α → List Leaf} {stop : State → Prop} {step : Parser (Step α)}

theorem collectUpTo_ensures (h : SoundStep n step view stop) (fuel : Nat) (hs : Ready n s)
    (hf : s.rest.length < fuel) :
    Ensures (collectUpTo step fuel) mode s fun items s' =>
      Reads s (items.flatMap view) s' ∧ stop s' := by
  induction fuel generalizing s with
  | zero => omega
  | succ fuel ih =>
    unfold collectUpTo
    rw [ensures_bind]
    refine (h hs).mono fun found s₁ ⟨hr, hmore, hstop⟩ => ?_
    rw [ensures_ite]
    split
    · rename_i hm
      have hlt := hmore hm
      have htot := hr.total
      rw [ensures_bind]
      refine (ih (hs.after hr) (by omega)).mono fun items s₂ ⟨hr₂, hst⟩ => ?_
      rw [ensures_pure, List.flatMap_append]
      exact ⟨hr.trans hr₂, hst⟩
    · rename_i hm
      exact ⟨hr, hstop (by simpa using hm)⟩

/-- **A loop of sound steps** reads its items and ends where a step stops. -/
theorem collect_ensures (h : SoundStep n step view stop) (hs : Ready n s) :
    Ensures (collect step) mode s fun items s' => Reads s (items.flatMap view) s' ∧ stop s' := by
  unfold collect
  rw [ensures_bind, ensures_get]
  exact collectUpTo_ensures h _ hs (Nat.lt_succ_self _)

theorem collect_sound (h : SoundStep n step view stop) :
    Sound n (collect step) fun items => items.flatMap view :=
  fun _ _ hs => (collect_ensures h hs).mono fun _ _ hr => hr.1

/-- Ends a run of a loop that found nothing and stops. -/
theorem SoundStep.stop_of_reads {s' : State} (h : Reads s [] s') :
    Reads s ((Step.stop : Step α).item.toList.flatMap view) s' ∧
      ((Step.stop : Step α).more = true → s.consumed < s'.consumed) ∧
      ((Step.stop : Step α).more = false → True) :=
  ⟨h, nofun, fun _ => trivial⟩

/-- Ends a run of a loop that found an item; a comma after it asks for another. -/
theorem comma_step {s₀ : State} {a : α} (hr : Reads s₀ (view a) s) (hs : Ready n s) :
    Ensures (do return (⟨some a, ← accept (.mark .comma)⟩ : Step α)) mode s fun found s' =>
      Reads s₀ (found.item.toList.flatMap view) s' ∧
        (found.more = true → s₀.consumed < s'.consumed) ∧ (found.more = false → True) := by
  rw [ensures_bind]
  refine (accept_ensures (Kind.plain_mark .comma) hs).mono fun more s' ⟨h, hlt, _⟩ => ?_
  rw [ensures_pure]
  refine ⟨by simpa using hr.trans h, fun hm => ?_, fun _ => trivial⟩
  exact Nat.lt_of_le_of_lt hr.consumed_le (hlt hm)

theorem listStep_sound (close : Mark) {item : Parser α} (h : Sound n item view) :
    SoundStep n (listStep close item) view fun _ => True := by
  intro mode s hs
  unfold listStep
  rw [ensures_bind, ensures_isAtAny, ensures_ite]
  split
  · exact SoundStep.stop_of_reads (.refl s)
  · rw [ensures_bind, ensures_consumed, ensures_bind]
    refine (h hs).mono fun a s₁ hr => ?_
    rw [ensures_bind, ensures_consumed, ensures_ite]
    split
    · rename_i hc
      -- an item without tokens has no leaves, so it can be left out
      have hnil := (hr.unmoved (by simpa using hc)).1
      exact SoundStep.stop_of_reads (hnil ▸ hr)
    · exact comma_step hr (hs.after hr)

/-- A bracketed list is entered on its opening bracket. -/
theorem bracketed_sound (opening close : Mark) {item : Parser α} (h : Sound n item view) :
    SoundFrom (n + 1) (· = .mark opening) (bracketed close item) fun items =>
      items.flatMap view := by
  refine .of_advance (fun _ hk => hk ▸ Kind.plain_mark opening) fun _ _ => fun mode s hs => ?_
  refine (collect_sound (listStep_sound close h)).inBrackets.then (.refl s) hs
    fun items s₁ hr hs₁ => ?_
  exact (expectUnit_sound (Kind.plain_mark close)).then hr hs₁ fun _ s₂ hr _ => by simpa using hr

/-- A sequence goes on after every item, because it drops a token where an item consumes none. -/
theorem progress_ensures {item : Parser (Option α)} (due : Expectation) (ends : Lexeme → Bool)
    (h : Sound n item fun o => o.toList.flatMap view) (hs : Ready n s)
    (hk : s.current.token.kind ≠ .eof) :
    Ensures (progress item due ends) mode s fun found s' =>
      Reads s (found.item.toList.flatMap view) s' ∧ found.more = true ∧
        s.consumed < s'.consumed := by
  unfold progress
  rw [ensures_bind, ensures_consumed, ensures_bind]
  refine (h hs).mono fun found s₁ hr => ?_
  rw [ensures_bind, ensures_consumed, ensures_ite]
  split
  · rename_i hc
    have hc' : s₁.consumed = s.consumed := by simpa using hc
    have hk₁ : s₁.current.token.kind ≠ .eof := (hr.unmoved hc').2 ▸ hk
    rw [ensures_bind]
    refine (recoverTo_ensures due ends (hs.after hr).closed hk₁).mono fun _ s₂ ⟨hr₂, hlt⟩ => ?_
    rw [ensures_pure]
    exact ⟨by simpa using hr.trans hr₂, rfl, by omega⟩
  · rename_i hc
    have := hr.consumed_le
    rw [beq_iff_eq] at hc
    rw [ensures_pure]
    exact ⟨hr, rfl, by omega⟩

theorem bracedStep_sound {item : Parser (Option α)} (due : Expectation) (ends : Lexeme → Bool)
    (h : Sound n item fun o => o.toList.flatMap view) :
    SoundStep n (bracedStep item due ends) view fun _ => True := by
  intro mode s hs
  unfold bracedStep
  rw [ensures_bind, ensures_isAtAny, ensures_ite]
  split
  · exact SoundStep.stop_of_reads (.refl s)
  · rename_i hk
    have hk' : s.current.token.kind ≠ .eof := by intro h; simp [h] at hk
    rw [ensures_bind]
    refine (accept_ensures (Kind.plain_mark .semicolon) hs).mono fun b s₁ ⟨hr, hlt, heq⟩ => ?_
    rw [ensures_ite]
    split
    · rename_i hb
      exact ⟨hr, fun _ => hlt hb, nofun⟩
    · rename_i hb
      rw [heq (by simpa using hb)]
      refine (progress_ensures due ends h hs hk').mono fun found s₂ ⟨hr₂, hm, hlt₂⟩ => ?_
      exact ⟨hr₂, fun _ => hlt₂, fun _ => trivial⟩

/-- The items after an opening brace. -/
theorem braced_sound {item : Parser (Option α)} (due : Expectation) (ends : Lexeme → Bool)
    (h : Sound n item fun o => o.toList.flatMap view) :
    Sound n (braced item due ends) fun items => items.flatMap view := by
  intro mode s hs
  unfold braced
  have hloop : Sound n (inBraces (collect (bracedStep item due ends))) fun items =>
      items.flatMap view := fun _ _ hs => collect_sound (bracedStep_sound due ends h) hs
  refine hloop.then (.refl s) hs fun items s₁ hr hs₁ => ?_
  exact (expectUnit_sound (Kind.plain_mark .rightBrace)).then hr hs₁
    fun _ s₂ hr _ => by simpa using hr

end Loops

end Yurin.Parser
