import Yurin.Proofs.Parser.Run
import Yurin.Proofs.Tree.Leaves

/-!
# What a parser reads

`Reads s found s'` says that the parser got from `s` to `s'` by a run, and that the leaves `found`
are taken in order from the tokens that the run matched. Modifiers may be left out, but no name that
was matched is missing from `found`.

A parser is `Sound` up to a budget when it reads what its result holds, from every state with fewer
tokens left than the budget. Soundness needs a budget because the productions are nested only as
deep as there are tokens: a production that is entered after a token has been consumed has one less
to go. `SoundFrom` is soundness of a parser that is entered on a token of a certain kind and
consumes it.

`Ensures` is the weakest precondition of a parser. Its equations run a parser symbolically, and
the lemmas that end in `_then` run the first part of one.
-/

namespace Yurin

/-- The leaf that a matched token can become. -/
def Token.leaf? (t : Token) : Option Leaf :=
  if t.kind = .identifier then some (.name t)
  else if t.kind.isModifier then some (.modifier t)
  else none

theorem Token.leaf?_name {t u : Token} (h : t.leaf? = some (.name u)) :
    t = u ∧ t.kind = .identifier := by
  unfold Token.leaf? at h
  split at h
  · exact ⟨by simpa using h, ‹_›⟩
  · split at h <;> simp at h

theorem Token.leaf?_modifier {t u : Token} (h : t.leaf? = some (.modifier u)) :
    t = u ∧ t.kind.isModifier = true := by
  unfold Token.leaf? at h
  split at h
  · simp at h
  · split at h
    · exact ⟨by simpa using h, ‹_›⟩
    · simp at h

/-- A token that is no name has no name as its leaf. -/
theorem Token.namesOf_leaf? {t : Token} (h : t.kind ≠ .identifier) :
    namesOf t.leaf?.toList = [] := by
  unfold Token.leaf?
  rw [if_neg h]
  split <;> rfl

namespace Parser

/-- The leaf that an event gives. -/
def Event.leaf? : Event → Option Leaf
  | .matched l => l.token.leaf?
  | .skipped _ | .complained _ => none

/-- The leaves that events give, in order. -/
def leavesOf (events : List Event) : List Leaf := events.filterMap Event.leaf?

@[simp] theorem leavesOf_append (es es' : List Event) :
    leavesOf (es ++ es') = leavesOf es ++ leavesOf es' := List.filterMap_append

@[simp] theorem complaintsOf_append (es es' : List Event) :
    complaintsOf (es ++ es') = complaintsOf es ++ complaintsOf es' := List.filterMap_append

@[simp] theorem consumedBy_append (es es' : List Event) :
    consumedBy (es ++ es') = consumedBy es ++ consumedBy es' := List.filterMap_append

/-- Only consumed tokens give leaves. -/
theorem leavesOf_of_consumedBy {es : List Event} (h : consumedBy es = []) : leavesOf es = [] := by
  induction es with
  | nil => rfl
  | cons e es ih =>
    cases e with
    | matched l => simp [consumedBy, Event.consumed?] at h
    | skipped l => simp [consumedBy, Event.consumed?] at h
    | complained c => exact ih h

/-- **The parser gets from `s` to `s'` and takes the leaves `found` from what it matches.** -/
def Reads (s : State) (found : List Leaf) (s' : State) : Prop :=
  ∃ events, Run s events s' ∧ found.Sublist (leavesOf events) ∧
    namesOf found = namesOf (leavesOf events)

namespace Reads

variable {s s' s'' : State} {found found' : List Leaf}

theorem refl (s : State) : Reads s [] s := ⟨[], .nil s, .slnil, rfl⟩

theorem trans (h : Reads s found s') (h' : Reads s' found' s'') :
    Reads s (found ++ found') s'' := by
  obtain ⟨es, run, sub, names⟩ := h
  obtain ⟨es', run', sub', names'⟩ := h'
  refine ⟨es ++ es', run.append run', ?_, ?_⟩
  · rw [leavesOf_append]
    exact sub.append sub'
  · rw [leavesOf_append, namesOf_append, namesOf_append, names, names']

/-- Leaves that are no names may be left out. -/
theorem drop (h : Reads s found s') (hsub : found'.Sublist found)
    (hn : namesOf found' = namesOf found) : Reads s found' s' := by
  obtain ⟨es, run, sub, names⟩ := h
  exact ⟨es, run, hsub.trans sub, hn.trans names⟩

theorem consumed_le (h : Reads s found s') : s.consumed ≤ s'.consumed := by
  obtain ⟨es, run, -, -⟩ := h
  rw [run.consumed_eq]
  omega

/-- What is consumed is missing from what lies ahead. -/
theorem total (h : Reads s found s') :
    s.consumed + s.rest.length = s'.consumed + s'.rest.length := by
  obtain ⟨es, run, -, -⟩ := h
  have h₁ := run.consumed_eq
  have h₂ := run.rest_length
  omega

theorem closed (h : Reads s found s') (hs : s.Closed) : s'.Closed := by
  obtain ⟨es, run, -, -⟩ := h
  exact run.closed hs

/-- A parser that has not moved has found nothing and is where it was. -/
theorem unmoved (h : Reads s found s') (hc : s'.consumed = s.consumed) :
    found = [] ∧ s'.current = s.current := by
  obtain ⟨es, run, sub, -⟩ := h
  have := run.consumed_eq
  have hes : consumedBy es = [] := List.eq_nil_of_length_eq_zero (by omega)
  have ha := run.ahead_eq
  rw [hes, List.nil_append] at ha
  rw [leavesOf_of_consumedBy hes] at sub
  refine ⟨List.eq_nil_of_sublist_nil sub, ?_⟩
  injection ha with hcur _
  exact hcur.symm

end Reads

/-- A state with less than `n` tokens after the current one, and the end of input among them. -/
structure Ready (n : Nat) (s : State) : Prop where
  closed : s.Closed
  short : s.rest.length < n

theorem Ready.after {n : Nat} {s s' : State} {found : List Leaf} (hs : Ready n s)
    (h : Reads s found s') : Ready n s' := by
  have := h.total
  have := h.consumed_le
  have := hs.short
  exact ⟨h.closed hs.closed, by omega⟩

/-- A token that has been consumed is one less in the budget. -/
theorem Ready.pred {n : Nat} {s s' : State} {found : List Leaf} (hs : Ready (n + 1) s)
    (h : Reads s found s') (hlt : s.consumed < s'.consumed) : Ready n s' := by
  have := h.total
  have := hs.short
  exact ⟨h.closed hs.closed, by omega⟩

theorem Ready.mono {n m : Nat} {s : State} (hs : Ready n s) (h : n ≤ m) : Ready m s :=
  ⟨hs.closed, Nat.lt_of_lt_of_le hs.short h⟩

/-! ## Running a parser -/

/-- The outcome of a parser in a state satisfies `Q`. -/
def Ensures {α : Type} (p : Parser α) (mode : LineMode) (s : State) (Q : α → State → Prop) :
    Prop :=
  Q ((p.run mode).run s).1 ((p.run mode).run s).2

section Ensures

variable {α β : Type} {mode : LineMode} {s : State}

theorem Ensures.mono {p : Parser α} {Q R : α → State → Prop} (h : Ensures p mode s Q)
    (hi : ∀ a s', Q a s' → R a s') : Ensures p mode s R :=
  hi _ _ h

@[simp] theorem ensures_bind {p : Parser α} {f : α → Parser β} {Q : β → State → Prop} :
    Ensures (p >>= f) mode s Q ↔ Ensures p mode s fun a s' => Ensures (f a) mode s' Q :=
  Iff.rfl

@[simp] theorem ensures_pure {a : α} {Q : α → State → Prop} :
    Ensures (pure a) mode s Q ↔ Q a s :=
  Iff.rfl

@[simp] theorem ensures_ite {c : Prop} [Decidable c] {p q : Parser α} {Q : α → State → Prop} :
    Ensures (if c then p else q) mode s Q ↔
      if c then Ensures p mode s Q else Ensures q mode s Q := by
  split <;> rfl

@[simp] theorem ensures_get {Q : State → State → Prop} : Ensures get mode s Q ↔ Q s s := Iff.rfl

@[simp] theorem ensures_current {Q : Token → State → Prop} :
    Ensures current mode s Q ↔ Q s.current.token s :=
  Iff.rfl

@[simp] theorem ensures_kind {Q : Kind → State → Prop} :
    Ensures kind mode s Q ↔ Q s.current.token.kind s :=
  Iff.rfl

@[simp] theorem ensures_nextKind {Q : Kind → State → Prop} :
    Ensures nextKind mode s Q ↔ Q (s.rest.headD s.current).token.kind s :=
  Iff.rfl

@[simp] theorem ensures_isAt {k : Kind} {Q : Bool → State → Prop} :
    Ensures (isAt k) mode s Q ↔ Q (s.current.token.kind == k) s :=
  Iff.rfl

@[simp] theorem ensures_isAtAny {ks : List Kind} {Q : Bool → State → Prop} :
    Ensures (isAtAny ks) mode s Q ↔ Q (ks.contains s.current.token.kind) s :=
  Iff.rfl

@[simp] theorem ensures_atBreak {Q : Bool → State → Prop} :
    Ensures atBreak mode s Q ↔ Q (mode == .significant && s.current.afterBreak) s :=
  Iff.rfl

@[simp] theorem ensures_isAtSameLine {k : Kind} {Q : Bool → State → Prop} :
    Ensures (isAtSameLine k) mode s Q ↔
      Q (s.current.token.kind == k && !(mode == .significant && s.current.afterBreak)) s :=
  Iff.rfl

@[simp] theorem ensures_consumed {Q : Nat → State → Prop} :
    Ensures consumed mode s Q ↔ Q s.consumed s :=
  Iff.rfl

@[simp] theorem ensures_skip {Q : Unit → State → Prop} : Ensures skip mode s Q ↔ Q () s.next :=
  Iff.rfl

@[simp] theorem ensures_skipUntil {stop : Lexeme → Bool} {Q : Unit → State → Prop} :
    Ensures (skipUntil stop) mode s Q ↔ Q () (s.skipUntil stop (s.rest.length + 1)) :=
  Iff.rfl

@[simp] theorem ensures_complain {cause : Cause} {Q : Unit → State → Prop} :
    Ensures (complain cause) mode s Q ↔ Q () (s.complain cause) :=
  Iff.rfl

@[simp] theorem ensures_inBrackets {p : Parser α} {Q : α → State → Prop} :
    Ensures (inBrackets p) mode s Q ↔ Ensures p .ignored s Q :=
  Iff.rfl

@[simp] theorem ensures_inBraces {p : Parser α} {Q : α → State → Prop} :
    Ensures (inBraces p) mode s Q ↔ Ensures p .significant s Q :=
  Iff.rfl

end Ensures

end Parser

end Yurin
