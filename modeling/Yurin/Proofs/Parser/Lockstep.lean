import Yurin.Proofs.Parser.Sound

/-!
# Two parses in lockstep

The parser looks at a line break only where breaks count, and inside parentheses and square brackets
they do not. So two streams with the same tokens, whose line breaks differ inside such brackets
only, are parsed alike as long as nothing is complained about.

* `bracketsAfter` keeps the open brackets while tokens are read, the innermost first, and
  `breaksCount` says whether line breaks count among them.
* `Agree`: two streams have the same tokens, and the same line breaks wherever these count.
* `Abreast`: two states of the parser stand on streams that agree, and are equal otherwise.
* `Lockstep`: a parser that is run from two states abreast, and does not complain in the first,
  returns the same in both and leaves them abreast.

A parser in lockstep also says what it does to the open brackets: it is entered with the brackets
`before` open and leaves `after`, both inside the same brackets `outer`. Without complaints every
phrase closes what it opens, so `before` and `after` are empty but for the parsers that are entered
behind an opening bracket. The mode of lines has to fit the outer brackets (`LineMode.Fits`): the
breaks that the parser looks at are breaks that count.

The rules of this file follow the building blocks of the parser: single tokens, complaints, loops
and brackets.
-/

namespace Yurin

/-! ## Brackets -/

namespace Mark

/-- Whether a mark opens or closes one of the brackets `(`, `[` and `{`. -/
def isBracket : Mark → Bool
  | .leftParen | .rightParen | .leftSquare | .rightSquare | .leftBrace | .rightBrace => true
  | _ => false

end Mark

/-- The open brackets after a closing one, which closes the innermost if `opening` opened it. -/
def closeBracket (opening : Mark) : List Mark → List Mark
  | [] => []
  | innermost :: outer => if innermost = opening then outer else innermost :: outer

/-- The open brackets after one more token, the innermost first. -/
def bracketsAfter (brackets : List Mark) : Kind → List Mark
  | .mark .leftParen => .leftParen :: brackets
  | .mark .leftSquare => .leftSquare :: brackets
  | .mark .leftBrace => .leftBrace :: brackets
  | .mark .rightParen => closeBracket .leftParen brackets
  | .mark .rightSquare => closeBracket .leftSquare brackets
  | .mark .rightBrace => closeBracket .leftBrace brackets
  | _ => brackets

/-- Whether line breaks count: not where the innermost open bracket is a parenthesis or a square
one. -/
def breaksCount : List Mark → Bool
  | .leftParen :: _ | .leftSquare :: _ => false
  | _ => true

/-- A token turns the open brackets `before` into `after`, whatever is open around them. -/
structure Turns (before after : List Mark) (k : Kind) : Prop where
  ne_eof : k ≠ .eof
  brackets : ∀ outer, bracketsAfter (before ++ outer) k = after ++ outer

section Turns

variable {before : List Mark}

theorem turns_keyword (w : Keyword) : Turns before before (.keyword w) := ⟨nofun, fun _ => rfl⟩

theorem turns_mark {m : Mark} (h : m.isBracket = false) : Turns before before (.mark m) := by
  refine ⟨nofun, fun outer => ?_⟩
  cases m <;> first | rfl | cases h

theorem turns_identifier : Turns before before .identifier := ⟨nofun, fun _ => rfl⟩

theorem turns_intLiteral : Turns before before .intLiteral := ⟨nofun, fun _ => rfl⟩

theorem turns_stringLiteral : Turns before before .stringLiteral := ⟨nofun, fun _ => rfl⟩

end Turns

/-- Two marks are the opening and the closing one of a bracket. -/
structure Brackets (opening closing : Mark) : Prop where
  opens : Turns [] [opening] (.mark opening)
  closes : Turns [opening] [] (.mark closing)

theorem parens : Brackets .leftParen .rightParen := ⟨⟨nofun, fun _ => rfl⟩, nofun, fun _ => rfl⟩

theorem squares : Brackets .leftSquare .rightSquare := ⟨⟨nofun, fun _ => rfl⟩, nofun, fun _ => rfl⟩

theorem braces : Brackets .leftBrace .rightBrace := ⟨⟨nofun, fun _ => rfl⟩, nofun, fun _ => rfl⟩

/-- The line mode fits the open brackets: where line breaks are significant, they count. -/
def LineMode.Fits (mode : LineMode) (outer : List Mark) : Prop :=
  mode = .significant → breaksCount outer = true

/-- **Two streams agree** behind some open brackets: they have the same tokens, and the same line
breaks wherever these count. -/
inductive Agree : List Mark → List Lexeme → List Lexeme → Prop
  | nil (brackets : List Mark) : Agree brackets [] []
  | cons {brackets : List Mark} {l m : Lexeme} {ls ms : List Lexeme} (token : m.token = l.token)
      (breaks : breaksCount brackets = true → m.afterBreak = l.afterBreak)
      (rest : Agree (bracketsAfter brackets l.token.kind) ls ms) :
      Agree brackets (l :: ls) (m :: ms)

theorem Agree.length_eq {brackets : List Mark} {ls ms : List Lexeme} (h : Agree brackets ls ms) :
    ms.length = ls.length := by
  induction h with
  | nil => rfl
  | cons _ _ _ ih => rw [List.length_cons, List.length_cons, ih]

namespace Parser

variable {α β : Type}

/-! ## States -/

/-- The state after the current token has been matched. -/
def State.matched (s : State) : State := { s.next with recovering := false }

@[simp] theorem ensures_advance {mode : LineMode} {s : State} {Q : Token → State → Prop} :
    Ensures advance mode s Q ↔ Q s.current.token s.matched :=
  Iff.rfl

/-- **Two states are abreast** behind some open brackets: what lies ahead agrees, the parser does
not recover in either, and all else is equal. -/
structure Abreast (brackets : List Mark) (s t : State) : Prop where
  ahead : Agree brackets s.ahead t.ahead
  closed : s.Closed
  consumed : t.consumed = s.consumed
  complaints : t.complaints = s.complaints
  overrun : t.overrun = s.overrun
  calm : s.recovering = false ∧ t.recovering = false

namespace Abreast

variable {brackets : List Mark} {s t : State}

theorem token (h : Abreast brackets s t) : t.current.token = s.current.token := by
  cases h.ahead with
  | cons token => exact token

theorem breaks (h : Abreast brackets s t) (hb : breaksCount brackets = true) :
    t.current.afterBreak = s.current.afterBreak := by
  cases h.ahead with
  | cons _ breaks => exact breaks hb

theorem rest (h : Abreast brackets s t) :
    Agree (bracketsAfter brackets s.current.token.kind) s.rest t.rest := by
  cases h.ahead with
  | cons _ _ rest => exact rest

theorem rest_length (h : Abreast brackets s t) : t.rest.length = s.rest.length := h.rest.length_eq

/-- The tokens after the current ones are of one kind, too. -/
theorem next_kind (h : Abreast brackets s t) :
    (t.rest.headD t.current).token.kind = (s.rest.headD s.current).token.kind := by
  have hrest := h.rest
  cases hs : s.rest with
  | nil =>
    rw [hs] at hrest
    cases ht : t.rest with
    | nil => rw [List.headD_nil, List.headD_nil, h.token]
    | cons m ms => rw [ht] at hrest; cases hrest
  | cons l ls =>
    rw [hs] at hrest
    cases ht : t.rest with
    | nil => rw [ht] at hrest; cases hrest
    | cons m ms =>
      rw [ht] at hrest
      cases hrest with
      | cons token => rw [List.headD_cons, List.headD_cons, token]

/-- Two states abreast go on to the next token together. -/
theorem matched {before after outer : List Mark} (h : Abreast (before ++ outer) s t)
    (hk : Turns before after s.current.token.kind) :
    Abreast (after ++ outer) s.matched t.matched ∧
      s.matched.current = s.rest.headD s.current := by
  obtain ⟨l, ls, hs⟩ := h.closed.exists_rest hk.ne_eof
  have hrest := h.rest
  rw [hs, hk.brackets] at hrest
  obtain ⟨m, ms, ht⟩ : ∃ m ms, t.rest = m :: ms := by
    cases ht : t.rest with
    | nil => rw [ht] at hrest; cases hrest
    | cons m ms => exact ⟨m, ms, rfl⟩
  rw [ht] at hrest
  have hclosed : ∃ x ∈ l :: ls, x.token.kind = .eof := by
    obtain ⟨x, hx, hkx⟩ := h.closed
    rw [State.ahead, hs] at hx
    rcases List.mem_cons.mp hx with rfl | hx
    · exact absurd hkx hk.ne_eof
    · exact ⟨x, hx, hkx⟩
  rw [State.matched, State.matched, State.next_eq hk.ne_eof hs,
    State.next_eq (h.token ▸ hk.ne_eof) ht, hs]
  exact ⟨⟨hrest, hclosed, congrArg (· + 1) h.consumed, h.complaints, h.overrun, rfl, rfl⟩, rfl⟩

end Abreast

/-! ## Parsers -/

/-- Complaints are only added. -/
def Grows (mode : LineMode) (p : Parser α) : Prop :=
  ∀ s, Ensures p mode s fun _ s' => s.complaints <:+ s'.complaints

/-- **The parser keeps two states abreast.** From two states abreast of which the first satisfies
`pre`, and without a complaint in the first, the results are the same and the states after them are
abreast again. Inside the brackets `outer` it finds `before` open and leaves `after`. -/
structure Lockstep (mode : LineMode) (pre : State → Prop) (before after : List Mark)
    (p : Parser α) : Prop where
  grows : Grows mode p
  agrees : ∀ ⦃outer s t⦄, mode.Fits outer → pre s → Abreast (before ++ outer) s t →
    Ensures p mode s fun a s' => s'.complaints = s.complaints →
      Ensures p mode t fun b t' => b = a ∧ Abreast (after ++ outer) s' t'

/-- Any state. -/
def Anywhere (_ : State) : Prop := True

/-- The current token is of the kind. -/
def At (k : Kind) (s : State) : Prop := s.current.token.kind = k

/-- The current token is of one of the kinds. -/
def AtAny (ks : List Kind) (s : State) : Prop := ks.contains s.current.token.kind = true

/-- The current token is of one of the kinds, and the next one of the kind `k`. -/
def AtPair (ks : List Kind) (k : Kind) (s : State) : Prop :=
  AtAny ks s ∧ (s.rest.headD s.current).token.kind = k

/-- The parser of a phrase keeps two states abreast: it closes the brackets that it opens. -/
abbrev Steady (mode : LineMode) (p : Parser α) : Prop := Lockstep mode Anywhere [] [] p

/-- The parser of a phrase that begins with a token of the kind. -/
abbrev SteadyAt (mode : LineMode) (k : Kind) (p : Parser α) : Prop := Lockstep mode (At k) [] [] p

section Grows

variable {mode : LineMode}

theorem Grows.pure (a : α) : Grows mode (pure a) := fun _ => List.suffix_rfl

theorem Grows.bind {p : Parser α} {f : α → Parser β} (hp : Grows mode p)
    (hf : ∀ a, Grows mode (f a)) : Grows mode (p >>= f) :=
  fun s => (hp s).mono fun a s' h => (hf a s').mono fun _ _ h' => h.trans h'

theorem Grows.ite {c : Prop} [Decidable c] {p q : Parser α} (hp : Grows mode p)
    (hq : Grows mode q) : Grows mode (if c then p else q) := by
  split
  · exact hp
  · exact hq

/-- A parser that makes no complaints. -/
theorem Grows.of_silent {p : Parser α}
    (h : ∀ s, Ensures p mode s fun _ s' => s'.complaints = s.complaints) : Grows mode p :=
  fun s => (h s).mono fun _ _ heq => heq ▸ List.suffix_rfl

/-- A parser that only looks at the state. -/
theorem Grows.of_look {p : Parser α} {look : State → α}
    (h : ∀ s, (p.run mode).run s = (look s, s)) : Grows mode p :=
  .of_silent fun s => by rw [Ensures, h s]

theorem grows_current : Grows mode current := .of_look fun _ => rfl

theorem grows_consumed : Grows mode consumed := .of_look fun _ => rfl

theorem State.next_complaints (s : State) : s.next.complaints = s.complaints := by
  unfold State.next
  split
  · rfl
  · split <;> rfl

theorem State.skipUntil_complaints (stop : Lexeme → Bool) (fuel : Nat) (s : State) :
    (s.skipUntil stop fuel).complaints = s.complaints := by
  induction fuel generalizing s with
  | zero => rfl
  | succ fuel ih =>
    unfold State.skipUntil
    split
    · rfl
    · rw [ih, State.next_complaints]

theorem State.matched_complaints (s : State) : s.matched.complaints = s.complaints :=
  s.next_complaints

theorem grows_advance : Grows mode advance := .of_silent State.matched_complaints

theorem grows_skip : Grows mode skip := .of_silent State.next_complaints

theorem grows_skipUntil (stop : Lexeme → Bool) : Grows mode (skipUntil stop) :=
  .of_silent fun s => s.skipUntil_complaints stop _

theorem grows_complain (cause : Cause) : Grows mode (complain cause) := fun s => by
  rw [ensures_complain, State.complain]
  split
  · exact List.suffix_rfl
  · exact List.suffix_cons _ _

theorem grows_recoverTo (due : Expectation) (stop : Lexeme → Bool) :
    Grows mode (recoverTo due stop) :=
  (grows_complain _).bind fun _ => grows_skip.bind fun _ => grows_skipUntil stop

end Grows

/-! ## Rules -/

namespace Lockstep

variable {mode : LineMode} {pre pre' post : State → Prop} {before mid after : List Mark}

theorem weaken {p : Parser α} (h : Lockstep mode pre before after p) (hpre : ∀ s, pre' s → pre s) :
    Lockstep mode pre' before after p :=
  ⟨h.grows, fun _ _ _ hfit hs hst => h.agrees hfit (hpre _ hs) hst⟩

theorem pure (a : α) : Lockstep mode pre before before (pure a : Parser α) :=
  ⟨.pure a, fun _ _ _ _ _ hst _ => ⟨rfl, hst⟩⟩

/-- One parser after the other. Complaints are only added, so if none is made in all, none is made
in either. -/
theorem bind {p : Parser α} {f : α → Parser β} (hp : Lockstep mode pre before mid p)
    (hf : ∀ a, Lockstep mode Anywhere mid after (f a)) :
    Lockstep mode pre before after (p >>= f) := by
  refine ⟨hp.grows.bind fun a => (hf a).grows, fun outer s t hfit hs hst => ?_⟩
  have hsub : Ensures p mode s fun _ s' => s.complaints <:+ s'.complaints := hp.grows s
  have hagree := hp.agrees hfit hs hst
  rw [ensures_bind]
  unfold Ensures at hsub hagree ⊢
  generalize (p.run mode).run s = first at hsub hagree ⊢
  obtain ⟨a, s₁⟩ := first
  intro hquiet
  -- A complaint of the first parser would still be there after the second.
  have hquiet₁ : s₁.complaints = s.complaints := by
    have hlast := (hf a).grows s₁
    exact (hlast.trans (hquiet ▸ List.suffix_rfl)).eq_of_length_le (hsub.length_le)
  obtain ⟨heq, hst₁⟩ := hagree hquiet₁
  subst heq
  exact (hf _).agrees hfit trivial hst₁ (hquiet.trans hquiet₁.symm)

theorem ite {c : Prop} [Decidable c] {p q : Parser α} (hp : c → Lockstep mode pre before after p)
    (hq : ¬ c → Lockstep mode pre before after q) :
    Lockstep mode pre before after (if c then p else q) := by
  split
  · exact hp ‹_›
  · exact hq ‹_›

/-! ### Looking at the state -/

end Lockstep

/-- The parser returns `look` of the state and changes nothing, and states abreast look the same
behind the brackets `before`. -/
structure Observes (mode : LineMode) (before : List Mark) (p : Parser α) (look : State → α) :
    Prop where
  run : ∀ s, (p.run mode).run s = (look s, s)
  same : ∀ ⦃outer s t⦄, mode.Fits outer → Abreast (before ++ outer) s t → look t = look s

section Observes

variable {mode : LineMode} {before : List Mark}

theorem observes_current : Observes mode before current (·.current.token) :=
  ⟨fun _ => rfl, fun _ _ _ _ hst => hst.token⟩

theorem observes_kind : Observes mode before kind (·.current.token.kind) :=
  ⟨fun _ => rfl, fun _ _ _ _ hst => congrArg Token.kind hst.token⟩

theorem observes_nextKind :
    Observes mode before nextKind fun s => (s.rest.headD s.current).token.kind :=
  ⟨fun _ => rfl, fun _ _ _ _ hst => hst.next_kind⟩

theorem observes_isAt (k : Kind) :
    Observes mode before (isAt k) fun s => s.current.token.kind == k :=
  ⟨fun _ => rfl, fun _ _ _ _ hst => congrArg (·.kind == k) hst.token⟩

theorem observes_isAt_singleton (k : Kind) :
    Observes mode before (isAt k) fun s => [k].contains s.current.token.kind := by
  simpa only [List.contains_cons, List.contains_nil, Bool.or_false] using observes_isAt k

theorem observes_isAtAny (ks : List Kind) :
    Observes mode before (isAtAny ks) fun s => ks.contains s.current.token.kind :=
  ⟨fun _ => rfl, fun _ _ _ _ hst => congrArg (fun t => ks.contains t.kind) hst.token⟩

theorem observes_consumed : Observes mode before consumed State.consumed :=
  ⟨fun _ => rfl, fun _ _ _ _ hst => hst.consumed⟩

/-- A break before the current token is looked at only where breaks count. -/
theorem observes_atBreak :
    Observes mode [] atBreak fun s => mode == .significant && s.current.afterBreak := by
  refine ⟨fun _ => rfl, fun outer s t hfit hst => ?_⟩
  cases mode with
  | ignored => rfl
  | significant => exact congrArg _ (hst.breaks (hfit rfl))

theorem observes_isAtSameLine (k : Kind) :
    Observes mode [] (isAtSameLine k) fun s =>
      s.current.token.kind == k && !(mode == .significant && s.current.afterBreak) := by
  refine ⟨fun _ => rfl, fun outer s t hfit hst => ?_⟩
  rw [hst.token, observes_atBreak.same hfit hst]

end Observes

namespace Lockstep

variable {mode : LineMode} {pre pre' post : State → Prop} {before mid after : List Mark}

/-- Looking at the state, and then going on with what was seen. -/
theorem observe {p : Parser α} {look : State → α} (hp : Observes mode before p look)
    {f : α → Parser β}
    (hf : ∀ a, Lockstep mode (fun s => pre s ∧ look s = a) before after (f a)) :
    Lockstep mode pre before after (p >>= f) := by
  refine ⟨(Grows.of_look hp.run).bind fun a => (hf a).grows, fun outer s t hfit hs hst => ?_⟩
  rw [ensures_bind]
  simp only [ensures_bind]
  unfold Ensures
  rw [hp.run s, hp.run t, hp.same hfit hst]
  exact (hf (look s)).agrees hfit ⟨hs, rfl⟩ hst

/-- Going on by the kind of the current token. -/
theorem onKind {f : Kind → Parser α} (hf : ∀ k, Lockstep mode (At k) before after (f k)) :
    Lockstep mode pre before after (Parser.kind >>= f) :=
  observe observes_kind fun k => (hf k).weaken fun _ hs => hs.2

/-- Testing the state, and then going one of two ways. -/
theorem test {c : Parser Bool} {look : State → Bool} (hc : Observes mode before c look)
    {p q : Parser α} (hp : Lockstep mode (look · = true) before after p)
    (hq : Lockstep mode pre before after q) :
    Lockstep mode pre before after (c >>= fun b => if b then p else q) := by
  refine observe hc fun b => ite (fun hb => ?_) fun _ => hq.weaken fun _ h => h.1
  exact hp.weaken fun s h => h.2.trans hb

/-- Going on where a token of a kind stands, and otherwise where none does. -/
theorem whenAt {k : Kind} {p q : Parser α} (hp : Lockstep mode (At k) before after p)
    (hq : Lockstep mode pre before after q) :
    Lockstep mode pre before after (do if ← isAt k then p else q) :=
  test (observes_isAt k) (hp.weaken fun _ => beq_iff_eq.mp) hq

/-- Going on where a token of one of the kinds stands. -/
theorem whenAny {ks : List Kind} {p q : Parser α} (hp : Lockstep mode (AtAny ks) before after p)
    (hq : Lockstep mode pre before after q) :
    Lockstep mode pre before after (do if ← isAtAny ks then p else q) :=
  test (observes_isAtAny ks) hp hq

/-- Going on where a token of a kind stands on the same line. -/
theorem whenSameLine {k : Kind} {p q : Parser α} (hp : Lockstep mode (At k) [] after p)
    (hq : Lockstep mode pre [] after q) :
    Lockstep mode pre [] after (do if ← isAtSameLine k then p else q) :=
  test (observes_isAtSameLine k)
    (hp.weaken fun _ h => beq_iff_eq.mp (Bool.and_eq_true_iff.mp h).1) hq

/-- Going on where a token of one of the kinds stands, with a token of another kind after it. -/
theorem whenPair {ks : List Kind} {k : Kind} {c : Parser Bool}
    (hc : Observes mode before c fun s => ks.contains s.current.token.kind) {p q : Parser α}
    (hp : Lockstep mode (AtPair ks k) before after p) (hq : Lockstep mode pre before after q) :
    Lockstep mode pre before after (do if (← c) && (← nextKind) == k then p else q) := by
  refine observe hc fun b => observe observes_nextKind fun next => ?_
  refine ite (fun h => ?_) fun _ => hq.weaken fun _ hs => hs.1.1
  rw [Bool.and_eq_true, beq_iff_eq] at h
  exact hp.weaken fun s hs => ⟨hs.1.2.trans h.1, hs.2.trans h.2⟩

/-! ### Single tokens -/

/-- Matching the current token, with what is known of the next one. -/
theorem advance_next {f : Token → Parser α}
    (hk : ∀ s, pre s → Turns before mid s.current.token.kind)
    (hpost : ∀ s s' : State, pre s → s'.current = s.rest.headD s.current → post s')
    (hf : ∀ t, Lockstep mode post mid after (f t)) :
    Lockstep mode pre before after (Parser.advance >>= f) := by
  refine ⟨grows_advance.bind fun a => (hf a).grows, fun outer s t hfit hs hst => ?_⟩
  obtain ⟨hnext, hcurrent⟩ := hst.matched (hk s hs)
  simp only [ensures_bind, ensures_advance, hst.token, ← s.matched_complaints]
  exact (hf s.current.token).agrees hfit (hpost s _ hs hcurrent) hnext

/-- Matching the current token, which is of a known kind. -/
theorem advance {k : Kind} (hk : Turns before mid k) {f : Token → Parser α}
    (hf : ∀ t, Lockstep mode Anywhere mid after (f t)) :
    Lockstep mode (At k) before after (Parser.advance >>= f) :=
  advance_next (fun _ hs => hs ▸ hk) (fun _ _ _ _ => trivial) hf

/-- Matching the current token, which is of one of the kinds. -/
theorem advance_any {ks : List Kind} (hks : ∀ k ∈ ks, Turns before mid k) {f : Token → Parser α}
    (hf : ∀ t, Lockstep mode Anywhere mid after (f t)) :
    Lockstep mode (AtAny ks) before after (Parser.advance >>= f) :=
  advance_next (fun _ hs => hks _ (List.contains_iff_mem.mp hs)) (fun _ _ _ _ => trivial) hf

/-- Matching the first of two tokens. -/
theorem advance_pair {ks : List Kind} {k : Kind} (hks : ∀ x ∈ ks, Turns before mid x)
    {f : Token → Parser α} (hf : ∀ t, Lockstep mode (At k) mid after (f t)) :
    Lockstep mode (AtPair ks k) before after (Parser.advance >>= f) :=
  advance_next (fun s hs => hks _ (List.contains_iff_mem.mp hs.1))
    (fun s s' hs hcur => by rw [At, hcur, hs.2]) hf

/-- Matching the current token if it is of a kind. -/
theorem accept {k : Kind} (hk : Turns before mid k) {f : Bool → Parser α}
    (hp : Lockstep mode Anywhere mid after (f true))
    (hq : Lockstep mode pre before after (f false)) :
    Lockstep mode pre before after (Parser.accept k >>= f) := by
  have heq : Parser.accept k >>= f =
      isAt k >>= fun b => if b then Parser.advance >>= fun _ => f true else f false := by
    unfold Parser.accept
    rw [bind_assoc]
    congr
    funext b
    cases b <;> rfl
  rw [heq]
  exact whenAt (advance hk fun _ => hp) hq

/-- A complaint: the parser does not recover yet, so it is made, and nothing is asked of what
follows. -/
theorem complain (cause : Cause) {f : Unit → Parser α} (hf : Grows mode (f ())) :
    Lockstep mode pre before after (Parser.complain cause >>= f) := by
  refine ⟨(grows_complain cause).bind fun _ => hf, fun outer s t hfit hs hst => ?_⟩
  have hmade : (s.complain cause).complaints = ⟨s.current.token, cause⟩ :: s.complaints := by
    rw [State.complain, if_neg (by simp [hst.calm.1])]
  rw [ensures_bind, ensures_complain]
  -- The premise fails: the complaint that was made here is still there.
  refine (hf (s.complain cause)).mono fun a s' hsub hquiet => ?_
  rw [hmade, hquiet] at hsub
  exact absurd hsub.length_le (by simp)

/-- Matching a token of a kind. If there is none, there is a complaint. -/
theorem expect {k : Kind} (hk : Turns before mid k) {f : Option Token → Parser α}
    (hsome : ∀ t, Lockstep mode Anywhere mid after (f (some t))) (hnone : Grows mode (f none)) :
    Lockstep mode pre before after (Parser.expect k >>= f) := by
  have heq : Parser.expect k >>= f =
      isAt k >>= fun b => if b then Parser.advance >>= fun t => f (some t)
        else Parser.complain (.mismatched (.kind k)) >>= fun _ => f none := by
    unfold Parser.expect
    rw [bind_assoc]
    congr
    funext b
    cases b <;> rfl
  rw [heq]
  exact whenAt (advance hk hsome) (complain _ hnone)

end Lockstep

section Tokens

variable {mode : LineMode} {pre : State → Prop} {before after : List Mark}

theorem accept_lockstep {k : Kind} (hk : Turns before before k) :
    Lockstep mode pre before before (accept k) := by
  rw [← bind_pure (accept k)]
  exact .accept hk (.pure _) (.pure _)

theorem expect_lockstep {k : Kind} (hk : Turns before after k) :
    Lockstep mode pre before after (expect_ k) :=
  .expect hk (fun _ => .pure _) (.pure _)

theorem expectIdentifier_lockstep : Lockstep mode pre before before expectIdentifier :=
  .expect turns_identifier (fun _ => .pure _) (.pure _)

/-- Where the parser recovers it complains. -/
theorem recoverTo_lockstep (due : Expectation) (stop : Lexeme → Bool) {f : Unit → Parser α}
    (hf : Grows mode (f ())) : Lockstep mode pre before after (recoverTo due stop >>= f) := by
  unfold recoverTo
  rw [bind_assoc]
  exact .complain _ ((grows_skip.bind fun _ => grows_skipUntil stop).bind fun _ => hf)

theorem giveUp_lockstep : Lockstep mode pre before before giveUp :=
  ⟨fun _ => List.suffix_rfl, fun _ _ _ _ _ hst _ =>
    ⟨rfl, hst.ahead, hst.closed, hst.consumed, hst.complaints, rfl, hst.calm⟩⟩

end Tokens

/-! ## Brackets and loops -/

section Brackets

variable {mode : LineMode} {before : List Mark} {p : Parser α}

/-- Between parentheses or brackets any brackets may be open, since line breaks do not count. -/
theorem inBrackets_lockstep (hp : Steady .ignored p) :
    Lockstep mode Anywhere before before (inBrackets p) :=
  ⟨fun s => hp.grows s, fun _ _ _ _ hs hst => hp.agrees nofun hs hst⟩

/-- Between braces line breaks count. -/
theorem inBraces_lockstep (hp : Steady .significant p) :
    Lockstep mode Anywhere (.leftBrace :: before) (.leftBrace :: before) (inBraces p) :=
  ⟨fun s => hp.grows s, fun _ _ _ _ hs hst => hp.agrees (fun _ => rfl) hs hst⟩

end Brackets

section Loops

variable {mode : LineMode} {before : List Mark}

theorem collectUpTo_lockstep {step : Parser (Step α)}
    (h : Lockstep mode Anywhere before before step) (fuel : Nat) :
    Lockstep mode Anywhere before before (collectUpTo step fuel) := by
  induction fuel with
  | zero => exact giveUp_lockstep.bind fun _ => .pure _
  | succ fuel ih =>
    exact h.bind fun found => .ite (fun _ => ih.bind fun _ => .pure _) fun _ => .pure _

/-- **A loop keeps two states abreast** when its runs do. As many tokens are left in both, so both
loops have the same bound. -/
theorem collect_lockstep {step : Parser (Step α)} (h : Lockstep mode Anywhere before before step) :
    Lockstep mode Anywhere before before (collect step) := by
  refine ⟨fun s => (collectUpTo_lockstep h _).grows s, fun outer s t hfit hs hst => ?_⟩
  unfold collect
  simp only [ensures_bind, ensures_get, hst.rest_length]
  exact (collectUpTo_lockstep h _).agrees hfit hs hst

/-- One item of a list in brackets. -/
theorem listStep_lockstep (close : Mark) {item : Parser α} (h : Steady mode item) :
    Steady mode (listStep close item) := by
  unfold listStep
  refine .whenAny (.pure _) ?_
  refine .observe observes_consumed fun n => .bind (h.weaken fun _ _ => trivial) fun a => ?_
  refine .observe observes_consumed fun n' => .ite (fun _ => .pure _) fun _ => ?_
  exact .bind (accept_lockstep (turns_mark rfl)) fun _ => .pure _

/-- The items between two brackets. -/
theorem bracketed_lockstep {opening close : Mark} (hb : Brackets opening close) {item : Parser α}
    (h : Steady .ignored item) : SteadyAt mode (.mark opening) (bracketed close item) := by
  unfold bracketed
  refine .advance hb.opens fun _ => ?_
  refine (inBrackets_lockstep (collect_lockstep (listStep_lockstep close h))).bind fun items => ?_
  exact (expect_lockstep hb.closes).bind fun _ => .pure _

/-- An item that consumes nothing leads to a complaint. -/
theorem progress_lockstep {item : Parser (Option α)} (due : Expectation) (ends : Lexeme → Bool)
    (h : Steady mode item) : Steady mode (progress item due ends) := by
  unfold progress
  refine .observe observes_consumed fun n => .bind (h.weaken fun _ _ => trivial) fun found => ?_
  refine .observe observes_consumed fun n' => .ite (fun _ => ?_) fun _ => .pure _
  exact recoverTo_lockstep due ends (.pure _)

theorem bracedStep_lockstep {item : Parser (Option α)} (due : Expectation) (ends : Lexeme → Bool)
    (h : Steady mode item) : Steady mode (bracedStep item due ends) := by
  unfold bracedStep
  refine .whenAny (.pure _) ?_
  exact .accept (turns_mark rfl) (.pure _) (progress_lockstep due ends h)

/-- The items after an opening brace, up to the closing one. -/
theorem braced_lockstep {item : Parser (Option α)} (due : Expectation) (ends : Lexeme → Bool)
    (h : Steady .significant item) :
    Lockstep mode Anywhere [.leftBrace] [] (braced item due ends) := by
  unfold braced
  refine (inBraces_lockstep (collect_lockstep (bracedStep_lockstep due ends h))).bind
    fun items => ?_
  exact (expect_lockstep braces.closes).bind fun _ => .pure _

end Loops

end Parser

end Yurin
