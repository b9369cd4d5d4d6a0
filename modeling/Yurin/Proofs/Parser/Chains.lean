import Yurin.Proofs.Parser.PrecedenceDeclarations
import Yurin.Proofs.Parser.Spelled

/-!
# Chains of operators

A `Chain` is integer literals with operators between them. The parser of a level reads a literal and
the operators of its own and of tighter levels behind it, and stops before an operator that is
looser (`fromLevel_reads`). So an expression reads a whole chain, without a complaint, and the tree
that it finds reads in order as the chain. The tree is leveled, hence the only one of its kind.
-/

namespace Yurin

/-- Whether a token of the kind, on the line of an expression, makes it larger. Dots are left out:
they do so only in front of a name. -/
def Kind.canExtend (k : Kind) : Bool :=
  0 < k.level ||
    [Kind.keyword .is, .keyword .notIs, .keyword .as, .keyword .safeAs, .mark .leftParen,
      .mark .leftSquare, .mark .nonNull].contains k

/-- The kinds of the operators of a level. -/
def Kind.ofLevel : Nat → List Kind
  | 1 => [.mark .orOr]
  | 2 => [.mark .andAnd]
  | 3 => [.mark .eqEq, .mark .notEq]
  | 4 => [.mark .leftAngle, .mark .rightAngle, .mark .lessEq, .mark .greaterEq]
  | 5 => [.keyword .in_, .keyword .notIn]
  | 6 => [.mark .elvis]
  | 7 => [.identifier]
  | 8 => [.mark .range, .mark .rangeEq]
  | 9 => [.mark .plus, .mark .minus, .mark .or]
  | 10 => [.mark .multiply, .mark .divide, .mark .modulo, .mark .and]
  | _ => []

theorem Kind.mem_ofLevel {k : Kind} (h : 0 < k.level) : k ∈ Kind.ofLevel k.level := by
  unfold Kind.level at h ⊢
  split at h <;> first | decide | cases h

/-- An operator, and the integer literal behind it. -/
structure Link where
  operator : Token
  operand : Token
  joins : 0 < operator.kind.level
  literal : operand.kind = .intLiteral

namespace Link

/-- The tokens of links. -/
def tokens (links : List Link) : List Token := links.flatMap fun l => [l.operator, l.operand]

/-- The tokens of links that stand on one line. -/
def lexemes (links : List Link) : List Lexeme :=
  links.flatMap fun l => [⟨l.operator, false⟩, ⟨l.operand, false⟩]

@[simp] theorem tokens_nil : tokens [] = [] := rfl

@[simp] theorem tokens_cons (l : Link) (links : List Link) :
    tokens (l :: links) = l.operator :: l.operand :: tokens links := rfl

@[simp] theorem tokens_append (as bs : List Link) : tokens (as ++ bs) = tokens as ++ tokens bs :=
  List.flatMap_append

@[simp] theorem lexemes_nil : lexemes [] = [] := rfl

@[simp] theorem lexemes_append (as bs : List Link) :
    lexemes (as ++ bs) = lexemes as ++ lexemes bs := List.flatMap_append

@[simp] theorem lexemes_cons (l : Link) (links : List Link) :
    lexemes (l :: links) = ⟨l.operator, false⟩ :: ⟨l.operand, false⟩ :: lexemes links := rfl

end Link

/-- Two expressions are joined by an operator. -/
def Suffix.joining (operator : Token) (right : Expr) : Suffix :=
  if operator.kind = .identifier then .infixCall ⟨operator⟩ right else .binary operator right

theorem Expr.InOrder.joining {left right : Expr} {ts us : List Token} (operator : Token)
    (hl : left.InOrder ts) (hr : right.InOrder us) :
    (left.extend (.joining operator right)).InOrder (ts ++ operator :: us) := by
  unfold Suffix.joining
  split
  · exact .infixCall ⟨operator⟩ hl hr
  · exact .binary operator hl hr

namespace Parser

/-- **An expression ends before the tokens**: what stands there does not make it larger, or only on
the line of the expression, and stands on a new one. -/
structure Ends (mode : LineMode) (next : Lexeme) (rest : List Lexeme) : Prop where
  operator : next.token.kind.canExtend = true →
    mode = .significant ∧ next.afterBreak = true ∧ joinsLines next.token.kind = false
  member : next.token.kind = .mark .dot ∨ next.token.kind = .mark .safeDot →
    (rest.headD next).token.kind ≠ .identifier

/-- No operator of level `n` stands here: another one does, or the expression ends. -/
def Stops (mode : LineMode) (n : Nat) (s : State) : Prop :=
  (0 < s.current.token.kind.level ∧ s.current.token.kind.level ≠ n) ∨ Ends mode s.current s.rest

variable {α β : Type} {mode : LineMode} {s s₀ : State} {P : Productions} {n : Nat}

/-- Matches the first of the tokens ahead. -/
theorem advance_ahead_then {l : Lexeme} {more : List Lexeme} (hc : Clean s₀ s)
    (ha : s.ahead = l :: more) (hne : more ≠ []) (hk : l.token.kind ≠ .eof) {f : Token → Parser β}
    {Q : β → State → Prop}
    (hf : ∀ s', Clean s₀ s' → s'.ahead = more → Ensures (f l.token) mode s' Q) :
    Ensures (advance >>= f) mode s Q := by
  injection ha with hcurrent hrest
  obtain ⟨next, rest, rfl⟩ := List.exists_cons_of_ne_nil hne
  subst hcurrent
  have step := State.Step.matched s hk hrest
  rw [← State.next_eq hk hrest] at step
  refine hf _ (hc.trans ⟨[s.current], .single step⟩) ?_
  rw [State.next_eq hk hrest]
  rfl

/-! ## What stops a level -/

/-- Where a level stops, none of its operators continues the expression. -/
theorem Stops.continues {operators : List Kind} (h : Stops mode n s)
    (hops : ∀ k ∈ operators, k.canExtend = true ∧ (k.level = 0 ∨ k.level = n)) :
    (operators.contains s.current.token.kind &&
      (!(mode == .significant && s.current.afterBreak) || joinsLines s.current.token.kind)) =
        false := by
  rw [Bool.and_eq_false_iff, ← Bool.not_eq_true, List.contains_iff_mem]
  refine Decidable.or_iff_not_imp_left.mpr fun hmem => ?_
  obtain ⟨hextend, hlevel⟩ := hops _ (Decidable.not_not.mp hmem)
  rcases h with ⟨hpos, hne⟩ | hends
  · omega
  · obtain ⟨hmode, hbreak, hjoins⟩ := hends.operator hextend
    simp [hmode, hbreak, hjoins]

/-- Where a level stops, nothing that has to stand on the line of the expression does so. -/
theorem Stops.sameLine {k : Kind} (h : Stops mode n s)
    (hk : k.canExtend = true ∧ (k.level = 0 ∨ k.level = n)) :
    (s.current.token.kind == k && !(mode == .significant && s.current.afterBreak)) = false := by
  rw [Bool.and_eq_false_iff, beq_eq_false_iff_ne]
  refine Decidable.or_iff_not_imp_left.mpr fun heq => ?_
  rw [Decidable.not_not] at heq
  rcases h with ⟨hpos, hne⟩ | hends
  · rw [heq] at hpos hne
    omega
  · obtain ⟨hmode, hbreak, -⟩ := hends.operator (heq ▸ hk.1)
    simp [hmode, hbreak]

theorem ensures_suffixStep {suffix : Parser (Option Suffix)} {Q : Step Suffix → State → Prop} :
    Ensures (suffixStep suffix) mode s Q ↔ Ensures suffix mode s fun found s' =>
      Q (match found with | some x => .found x | none => .stop) s' := by
  unfold suffixStep
  rw [ensures_bind]
  constructor <;> exact fun h => h.mono fun found s' hQ => by cases found <;> exact hQ

/-- A parser of suffixes finds none, and consumes nothing. -/
def FindsNone (suffix : Parser (Option Suffix)) (mode : LineMode) (s : State) : Prop :=
  Ensures suffix mode s fun found s' => found = none ∧ s' = s

theorem operator_stops {operators : List Kind} {f : Parser (Option Suffix)}
    {rest : Parser (Option Suffix)} (h : Stops mode n s)
    (hops : ∀ k ∈ operators, k.canExtend = true ∧ (k.level = 0 ∨ k.level = n))
    (hrest : FindsNone rest mode s) :
    FindsNone (do if ← continues operators then f else rest) mode s := by
  unfold FindsNone
  rw [ensures_bind, ensures_continues, ensures_ite, if_neg (by rw [h.continues hops]; nofun)]
  exact hrest

theorem findsNone_none : FindsNone (pure none) mode s := ⟨rfl, rfl⟩

/-- **Each level stops** where none of its operators stands. -/
theorem levels_stop {i : Nat} (hi : i < (levels P).length) {operand : Parser Expr}
    (h : Stops mode (i + 1) s) : FindsNone ((levels P)[i] operand) mode s := by
  match i, hi with
  | 0, _ | 1, _ | 2, _ | 3, _ | 5, _ | 7, _ | 8, _ | 9, _ | 10, _ =>
    exact operator_stops h (by decide) findsNone_none
  | 4, _ => exact operator_stops h (by decide) (operator_stops h (by decide) findsNone_none)
  | 6, _ =>
    have hname := h.sameLine (k := .identifier) (by decide)
    show FindsNone (infixSuffix operand) mode s
    unfold FindsNone infixSuffix
    rw [ensures_bind, ensures_isAtSameLine, ensures_ite, if_neg (by rw [hname]; nofun)]
    exact findsNone_none

/-! ## What a level reads -/

/-- An operator that stands on the line of an expression continues it. -/
theorem operator_joins {operators : List Kind} {operand : Parser Expr}
    {rest : Parser (Option Suffix)} {operator : Token} {more : List Lexeme}
    (ha : s.ahead = ⟨operator, false⟩ :: more) (hne : more ≠ [])
    (hop : operator.kind ∈ operators) (hname : operator.kind ≠ .identifier)
    (hopen : operator.kind ≠ .eof) {Q : Option Suffix → State → Prop}
    (hQ : ∀ s', Clean s s' → s'.ahead = more →
      Ensures operand mode s' fun right s'' => Q (some (.joining operator right)) s'') :
    Ensures (do
      if ← continues operators then
        let operator ← advance
        return some (.binary operator (← operand))
      rest) mode s Q := by
  have hcurrent : s.current = ⟨operator, false⟩ := (List.cons.inj ha).1
  rw [ensures_bind, ensures_continues, ensures_ite, if_pos (by simp [hcurrent, hop])]
  refine advance_ahead_then (.refl s) ha hne hopen fun s' hc ha' => ?_
  rw [ensures_bind]
  refine (hQ s' hc ha').mono fun right s'' h => ?_
  rwa [Suffix.joining, if_neg hname] at h

/-- **Each level reads its operators**, each with a right operand of the next level. -/
theorem levels_join {i : Nat} (hi : i < (levels P).length) {operand : Parser Expr}
    {operator : Token} {more : List Lexeme} (ha : s.ahead = ⟨operator, false⟩ :: more)
    (hne : more ≠ []) (hlevel : operator.kind.level = i + 1) {Q : Option Suffix → State → Prop}
    (hQ : ∀ s', Clean s s' → s'.ahead = more →
      Ensures operand mode s' fun right s'' => Q (some (.joining operator right)) s'') :
    Ensures ((levels P)[i] operand) mode s Q := by
  have hmem : operator.kind ∈ Kind.ofLevel (i + 1) :=
    hlevel ▸ Kind.mem_ofLevel (hlevel ▸ Nat.succ_pos i)
  have hopen : operator.kind ≠ .eof := by
    intro h
    rw [h] at hlevel
    cases hlevel
  have hname (hi : i ≠ 6) : operator.kind ≠ .identifier := by
    intro h
    rw [h] at hlevel
    exact hi (Nat.succ.inj hlevel.symm)
  have hcurrent : s.current = ⟨operator, false⟩ := (List.cons.inj ha).1
  match i, hi with
  | 0, _ | 1, _ | 2, _ | 3, _ | 5, _ | 7, _ | 8, _ | 9, _ =>
    exact operator_joins ha hne hmem (hname (by decide)) hopen hQ
  | 4, _ =>
    show Ensures (testSuffix P operand) mode s Q
    unfold testSuffix
    rw [ensures_bind, ensures_continues, ensures_ite, if_neg]
    · exact operator_joins ha hne hmem (hname (by decide)) hopen hQ
    · rcases List.mem_pair.mp hmem with h | h <;> simp [hcurrent, h]
  | 6, _ =>
    show Ensures (infixSuffix operand) mode s Q
    have hk : operator.kind = .identifier := List.mem_singleton.mp hmem
    unfold infixSuffix
    rw [ensures_bind, ensures_isAtSameLine, ensures_ite, if_pos (by simp [hcurrent, hk])]
    refine advance_ahead_then (.refl s) ha hne hopen fun s' hc ha' => ?_
    rw [ensures_bind]
    refine (hQ s' hc ha').mono fun right s'' h => ?_
    rwa [Suffix.joining, if_pos hk] at h
  | 10, _ => exact absurd hmem List.not_mem_nil

/-- An integer literal is an expression of the highest level. -/
theorem prefixed_literal {first : Lexeme} {more : List Lexeme} (ha : s.ahead = first :: more)
    (hne : more ≠ []) (hk : first.token.kind = .intLiteral)
    (hstop : ∀ s' : State, s'.ahead = more → Stops mode 12 s') :
    Ensures (prefixed P) mode s fun e s' =>
      Clean s s' ∧ e = .literal first.token ∧ s'.ahead = more := by
  have hcurrent : s.current = first := (List.cons.inj ha).1
  have hnone : Ensures prefixStep mode s fun found s' => found = .stop ∧ s' = s := by
    unfold prefixStep
    rw [ensures_bind, ensures_isAtAny, ensures_ite, if_neg (by simp [hcurrent, hk])]
    exact ⟨rfl, rfl⟩
  have hgrown {s' : State} (h : Stops mode 12 s') :
      FindsNone (postfixSuffix P) mode s' := by
    have hmember : ¬ (([Kind.mark .dot, .mark .safeDot].contains s'.current.token.kind &&
        (s'.rest.headD s'.current).token.kind == .identifier) = true) := by
      rw [Bool.and_eq_true, List.contains_iff_mem, beq_iff_eq]
      rintro ⟨hdot, hname⟩
      rw [List.mem_pair] at hdot
      rcases h with ⟨hpos, -⟩ | hends
      · rcases hdot with hdot | hdot <;> rw [hdot] at hpos <;> cases hpos
      · exact hends.member hdot hname
    unfold FindsNone postfixSuffix
    rw [ensures_bind, ensures_isAtSameLine, h.sameLine (by decide), ensures_ite,
      if_neg Bool.false_ne_true, ensures_bind, ensures_isAtSameLine, h.sameLine (by decide),
      ensures_ite, if_neg Bool.false_ne_true, ensures_bind, ensures_isAtAny, ensures_bind,
      ensures_nextKind, ensures_ite, if_neg hmember, ensures_bind, ensures_isAtSameLine,
      h.sameLine (by decide), ensures_ite, if_neg Bool.false_ne_true]
    exact ⟨rfl, rfl⟩
  unfold prefixed
  rw [ensures_bind]
  refine (collect_none hnone).mono ?_
  rintro _ _ ⟨rfl, rfl⟩
  unfold postfixed chain
  rw [ensures_bind, ensures_bind]
  unfold primary
  rw [ensures_bind, ensures_kind, hcurrent, hk]
  refine advance_ahead_then (.refl _) ha hne (by rw [hk]; nofun) fun s₁ hc ha₁ => ?_
  rw [ensures_pure, ensures_bind]
  have hstep : Ensures (suffixStep (postfixSuffix P)) mode s₁
      fun found s' => found = .stop ∧ s' = s₁ := by
    refine ensures_suffixStep.mpr ((hgrown (hstop s₁ ha₁)).mono ?_)
    rintro _ _ ⟨rfl, rfl⟩
    exact ⟨rfl, rfl⟩
  refine (collect_none hstep).mono ?_
  rintro _ _ ⟨rfl, rfl⟩
  exact ⟨hc, rfl, ha₁⟩

/-! ## Chains -/

section Chains

variable {next : Lexeme} {rest : List Lexeme} {i : Nat}

/-- Between links and the end of an expression, every level stops but that of the next operator. -/
theorem stops_ahead {links : List Link} (ha : s.ahead = Link.lexemes links ++ next :: rest)
    (hends : Ends mode next rest) (hlinks : ∀ l ∈ links.head?, l.operator.kind.level ≠ n) :
    Stops mode n s := by
  cases links with
  | nil =>
    injection ha with hcurrent hrest
    exact .inr (hcurrent ▸ hrest ▸ hends)
  | cons l links =>
    have hcurrent : s.current = ⟨l.operator, false⟩ := (List.cons.inj ha).1
    exact .inl (hcurrent ▸ ⟨l.joins, hlinks l rfl⟩)

/-- **The parser takes some of the links** that lie ahead, and stops where no operator follows or
one of level `i` or less. What it has found is `good` for the links taken. -/
def Takes (i : Nat) (links : List Link) (tail : List Lexeme) (s s' : State)
    (good : List Link → Prop) : Prop :=
  ∃ taken left, links = taken ++ left ∧ (∀ l ∈ left.head?, l.operator.kind.level ≤ i) ∧
    Clean s s' ∧ s'.ahead = Link.lexemes left ++ tail ∧ good taken

/-- From an integer literal on, the parser reads links in order, down to those of level `i`. -/
def ReadsLevel (i : Nat) (mode : LineMode) (tail : List Lexeme) (p : Parser Expr) : Prop :=
  ∀ ⦃first : Lexeme⦄ ⦃links : List Link⦄ ⦃s : State⦄, first.token.kind = .intLiteral →
    s.ahead = first :: (Link.lexemes links ++ tail) →
      Ensures p mode s fun e s' => Takes i links tail s s' fun taken =>
        e.InOrder (first.token :: Link.tokens taken)

/-- **The loop of a level.** Each run takes one operator of the level with the operand on its right,
and the tree built so far reads as all that has been taken. -/
theorem collect_takes (hi : i < (levels P).length) {operand : Parser Expr}
    (ho : ReadsLevel (i + 1) mode (next :: rest) operand) (hends : Ends mode next rest)
    {fuel : Nat} {links : List Link} {left : Expr} {ts : List Token}
    (hlinks : ∀ l ∈ links.head?, l.operator.kind.level ≤ i + 1) (hleft : left.InOrder ts)
    (ha : s.ahead = Link.lexemes links ++ next :: rest) (hfuel : s.rest.length < fuel) :
    Ensures (collectUpTo (suffixStep ((levels P)[i] operand)) fuel) mode s fun xs s' =>
      Takes i links (next :: rest) s s' fun taken =>
        (xs.foldl Expr.extend left).InOrder (ts ++ Link.tokens taken) := by
  induction fuel generalizing s links left ts with
  | zero => omega
  | succ fuel ih =>
    unfold collectUpTo
    rw [ensures_bind, ensures_suffixStep]
    have hstop (hne : ∀ l ∈ links.head?, l.operator.kind.level ≠ i + 1) :
        Ensures ((levels P)[i] operand) mode s fun found s' =>
          found = none ∧ s' = s ∧ ∀ l ∈ links.head?, l.operator.kind.level ≤ i := by
      refine (levels_stop hi (stops_ahead ha hends hne)).mono ?_
      rintro _ _ ⟨rfl, rfl⟩
      refine ⟨rfl, rfl, fun l hl => ?_⟩
      have := hlinks l hl
      have := hne l hl
      omega
    by_cases hne : ∀ l ∈ links.head?, l.operator.kind.level ≠ i + 1
    · refine (hstop hne).mono ?_
      rintro _ _ ⟨rfl, rfl, hle⟩
      rw [ensures_ite, if_neg (by decide), ensures_pure]
      exact ⟨[], links, rfl, hle, .refl _, ha, by simpa [Step.stop] using hleft⟩
    cases links with
    | nil => exact absurd (by simp) hne
    | cons l links =>
      have hlevel : l.operator.kind.level = i + 1 := by
        refine Decidable.byContradiction fun h => hne fun m hm => ?_
        cases hm
        exact h
      refine levels_join hi ha (List.cons_ne_nil _ _) hlevel fun s₁ hc₁ ha₁ => ?_
      refine (ho l.literal ha₁).mono fun right s₂ h => ?_
      obtain ⟨taken, left', hlinks', hle, hc₂, ha₂, hright⟩ := h
      rw [ensures_ite, if_pos (by rfl), ensures_bind]
      have hshort : s₂.rest.length < fuel := by
        have h₁ := congrArg List.length ha
        have h₂ := congrArg List.length ha₂
        simp only [hlinks', State.ahead, Link.lexemes_cons, Link.lexemes_append, List.cons_append,
          List.length_cons, List.length_append] at h₁ h₂
        omega
      refine (ih hle (hleft.joining l.operator hright) ha₂ hshort).mono fun xs s₃ h => ?_
      obtain ⟨taken', left'', hlinks'', hle', hc₃, ha₃, hall⟩ := h
      rw [ensures_pure]
      refine ⟨l :: (taken ++ taken'), left'', by simp [hlinks', hlinks''], hle',
        hc₁.trans (hc₂.trans hc₃), ha₃, ?_⟩
      simpa [Step.found] using hall

/-- A level reads as much as the next one, and then goes on with its own operators. -/
theorem chain_reads (hi : i < (levels P).length) {operand : Parser Expr}
    (ho : ReadsLevel (i + 1) mode (next :: rest) operand) (hends : Ends mode next rest) :
    ReadsLevel i mode (next :: rest) (chain operand ((levels P)[i] operand)) := by
  intro first links s hfirst ha
  unfold chain
  rw [ensures_bind]
  refine (ho hfirst ha).mono fun e s₁ h => ?_
  obtain ⟨taken, left, rfl, hle, hc, ha₁, he⟩ := h
  unfold collect
  rw [ensures_bind, ensures_bind, ensures_get]
  refine (collect_takes hi ho hends hle he ha₁ (Nat.lt_succ_self _)).mono fun xs s₂ h => ?_
  obtain ⟨taken', left', rfl, hle', hc', ha₂, hall⟩ := h
  rw [ensures_pure]
  exact ⟨taken ++ taken', left', (List.append_assoc ..).symm, hle', hc.trans hc', ha₂,
    by simpa using hall⟩

theorem fromLevel_reads (hends : Ends mode next rest) (i : Nat) (hi : i ≤ 11) :
    ReadsLevel i mode (next :: rest) (fromLevel P i) := by
  obtain ⟨k, hk⟩ := Nat.exists_eq_add_of_le hi
  induction k generalizing i with
  | zero =>
    obtain rfl : i = 11 := hk.symm
    intro first links s hfirst ha
    have hlow (n : Nat) (hn : 10 < n) (l : Link) : l.operator.kind.level < n :=
      Nat.lt_of_le_of_lt (Kind.level_le _) hn
    have hliteral : Ensures (prefixed P) mode s _ :=
      prefixed_literal ha (by simp) hfirst fun s' ha' =>
        stops_ahead ha' hends fun l _ => Nat.ne_of_lt (hlow 12 (by decide) l)
    refine hliteral.mono ?_
    rintro _ s' ⟨hc, rfl, ha'⟩
    exact ⟨[], links, rfl, fun l _ => Nat.le_of_lt (hlow 11 (by decide) l), hc, ha', .literal _⟩
  | succ k ih =>
    have hlt : i < (levels P).length := by
      show i < 11
      omega
    rw [fromLevel_eq hlt]
    exact chain_reads hlt (ih (i + 1) (by omega) (by omega)) hends

/-- **An expression reads a whole chain**, in order and without a complaint. -/
theorem expression_reads {first : Lexeme} {links : List Link}
    (hfirst : first.token.kind = .intLiteral)
    (ha : s.ahead = first :: (Link.lexemes links ++ next :: rest)) (hends : Ends mode next rest) :
    Ensures (expression P) mode s fun e s' =>
      e.InOrder (first.token :: Link.tokens links) ∧ Clean s s' ∧ s'.ahead = next :: rest := by
  have hall : Ensures (expression P) mode s _ :=
    fromLevel_reads hends 0 (Nat.zero_le _) hfirst ha
  refine hall.mono fun e s' h => ?_
  obtain ⟨taken, left, rfl, hle, hc, ha', he⟩ := h
  -- no operator is left, since level 0 has none
  cases left with
  | nil => exact ⟨by simpa using he, hc, ha'⟩
  | cons l left => exact absurd l.joins (Nat.not_lt.mpr (hle l rfl))

end Chains

end Parser

end Yurin
