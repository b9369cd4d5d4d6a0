import Yurin.Parser

/-!
# Runs of the parser

Whatever a parser does to its state is a sequence of three events: it matches the current token,
skips it, or complains about it (`State.Step`). A `Run` is such a sequence.

* Only a token that is not the end of input is consumed, so a run stays in the stream.
* A token is skipped only while the parser recovers from a complaint.
* A complaint is made only when the parser does not recover already.

Results:
* `Run.ahead_eq`: what lay ahead at the start is what the run consumed, followed by what lies ahead
  at its end; `Run.consumed_eq` counts it.
* `Run.overrun_eq`: no run goes past a bound.
* `Run.complaints_eq`: the complaints of the state are those of the run, newest first.
* `Run.calm`: a run without complaints does not begin to recover.
-/

namespace Yurin.Parser

/-- One thing that a parser does. -/
inductive Event
  | matched (lexeme : Lexeme)
  | skipped (lexeme : Lexeme)
  | complained (complaint : Complaint)
  deriving DecidableEq, Repr

namespace Event

/-- The token that an event consumes. -/
def consumed? : Event → Option Lexeme
  | .matched l | .skipped l => some l
  | .complained _ => none

/-- The complaint that an event makes. -/
def complaint? : Event → Option Complaint
  | .complained c => some c
  | .matched _ | .skipped _ => none

end Event

/-- The tokens that events consume, in order. -/
def consumedBy (events : List Event) : List Lexeme := events.filterMap Event.consumed?

/-- The complaints that events make, in order. -/
def complaintsOf (events : List Event) : List Complaint := events.filterMap Event.complaint?

namespace State

/-- The tokens from the current one on. -/
def ahead (s : State) : List Lexeme := s.current :: s.rest

/-- An end of input lies ahead. -/
def Closed (s : State) : Prop := ∃ l ∈ s.ahead, l.token.kind = .eof

/-- The state on the token `l`, before the tokens `rest`. -/
def moveTo (s : State) (l : Lexeme) (rest : List Lexeme) : State :=
  { s with current := l, rest := rest, consumed := s.consumed + 1 }

/-- **One event**, with the states before and after it. -/
inductive Step : State → Event → State → Prop
  | matched (s : State) {l : Lexeme} {rest : List Lexeme} (hk : s.current.token.kind ≠ .eof)
      (hr : s.rest = l :: rest) :
      Step s (.matched s.current) { s.moveTo l rest with recovering := false }
  | skipped (s : State) {l : Lexeme} {rest : List Lexeme} (hk : s.current.token.kind ≠ .eof)
      (hr : s.rest = l :: rest) (hrec : s.recovering = true) :
      Step s (.skipped s.current) (s.moveTo l rest)
  | complained (s : State) (cause : Cause) (hrec : s.recovering = false) :
      Step s (.complained ⟨s.current.token, cause⟩)
        { s with recovering := true, complaints := ⟨s.current.token, cause⟩ :: s.complaints }

end State

/-- **A run**: the events of a parser, with the states before and after them. -/
inductive Run : State → List Event → State → Prop
  | nil (s : State) : Run s [] s
  | cons {s s' s'' : State} {e : Event} {es : List Event} (h : s.Step e s') (t : Run s' es s'') :
      Run s (e :: es) s''

/-! ## One step -/

namespace State.Step

variable {s s' : State} {e : Event}

theorem ahead_eq (h : s.Step e s') : s.ahead = e.consumed?.toList ++ s'.ahead := by
  cases h with
  | matched _ hr => simp [ahead, moveTo, Event.consumed?, hr]
  | skipped _ hr _ => simp [ahead, moveTo, Event.consumed?, hr]
  | complained => rfl

theorem consumed_eq (h : s.Step e s') :
    s'.consumed = s.consumed + e.consumed?.toList.length := by
  cases h <;> rfl

/-- A consumed token is not the end of input. -/
theorem open_of_consumed (h : s.Step e s') {l : Lexeme} (hl : e.consumed? = some l) :
    l.token.kind ≠ .eof := by
  cases h with
  | matched hk _ => cases hl; exact hk
  | skipped hk _ _ => cases hl; exact hk
  | complained => cases hl

theorem overrun_eq (h : s.Step e s') : s'.overrun = s.overrun := by
  cases h <;> rfl

theorem complaints_eq (h : s.Step e s') :
    s'.complaints = e.complaint?.toList ++ s.complaints := by
  cases h <;> rfl

/-- A complaint names a token ahead. -/
theorem offending_mem (h : s.Step e s') {c : Complaint} (hc : e.complaint? = some c) :
    c.offending ∈ s.ahead.map Lexeme.token := by
  cases h with
  | matched => cases hc
  | skipped => cases hc
  | complained => cases hc; exact List.mem_cons_self

end State.Step

/-! ## Whole runs -/

namespace Run

variable {s s' s'' : State} {es es' : List Event}

theorem single {e : Event} (h : s.Step e s') : Run s [e] s' := .cons h (.nil s')

theorem append (h : Run s es s') (h' : Run s' es' s'') : Run s (es ++ es') s'' := by
  induction h with
  | nil => exact h'
  | cons step _ ih => exact .cons step (ih h')

theorem ahead_eq (h : Run s es s') : s.ahead = consumedBy es ++ s'.ahead := by
  induction h with
  | nil => rfl
  | @cons s _ _ e es step _ ih =>
    rw [step.ahead_eq, ih]
    cases he : e.consumed? <;> simp [consumedBy, he]

theorem consumed_eq (h : Run s es s') : s'.consumed = s.consumed + (consumedBy es).length := by
  induction h with
  | nil => rfl
  | @cons s _ _ e es step _ ih =>
    rw [ih, step.consumed_eq]
    cases he : e.consumed? with
    | none => simp [consumedBy, he]
    | some l =>
      simp only [consumedBy, List.filterMap_cons, he, Option.toList_some, List.length_cons,
        List.length_nil]
      omega

/-- No run passes over the end of input. -/
theorem open_of_mem (h : Run s es s') {l : Lexeme} (hl : l ∈ consumedBy es) :
    l.token.kind ≠ .eof := by
  induction h with
  | nil => exact absurd hl List.not_mem_nil
  | @cons s _ _ e es step _ ih =>
    obtain ⟨e', he', hl'⟩ := List.mem_filterMap.mp hl
    rcases List.mem_cons.mp he' with rfl | hmem
    · exact step.open_of_consumed hl'
    · exact ih (List.mem_filterMap.mpr ⟨e', hmem, hl'⟩)

theorem overrun_eq (h : Run s es s') : s'.overrun = s.overrun := by
  induction h with
  | nil => rfl
  | cons step _ ih => rw [ih, step.overrun_eq]

theorem complaints_eq (h : Run s es s') :
    s'.complaints = (complaintsOf es).reverse ++ s.complaints := by
  induction h with
  | nil => rfl
  | @cons s _ _ e es step _ ih =>
    rw [ih, step.complaints_eq]
    cases he : e.complaint? <;> simp [complaintsOf, he]

/-- A run that ends without complaints makes none. -/
theorem complaintsOf_eq_nil (h : Run s es s') (hs : s'.complaints = []) : complaintsOf es = [] := by
  have hall := h.complaints_eq
  rw [hs] at hall
  exact List.reverse_eq_nil_iff.mp (List.append_eq_nil_iff.mp hall.symm).1

/-- A parser that does not recover, and does not complain, does not recover afterwards. -/
theorem calm (h : Run s es s') (hs : s.recovering = false)
    (hes : complaintsOf es = []) : s'.recovering = false := by
  induction h with
  | nil => exact hs
  | cons step _ ih =>
    cases step with
    | matched => exact ih rfl hes
    | skipped _ _ hrec => simp [hs] at hrec
    | complained => simp [complaintsOf, Event.complaint?] at hes

/-- The end of input still lies ahead after a run. -/
theorem closed (h : Run s es s') (hs : s.Closed) : s'.Closed := by
  obtain ⟨l, hl, hk⟩ := hs
  rw [h.ahead_eq] at hl
  rcases List.mem_append.mp hl with hl | hl
  · exact absurd hk (h.open_of_mem hl)
  · exact ⟨l, hl, hk⟩

/-- A complaint of a run names a token that lay ahead at its start. -/
theorem offending_mem (h : Run s es s') {c : Complaint} (hc : c ∈ complaintsOf es) :
    c.offending ∈ s.ahead.map Lexeme.token := by
  induction h with
  | nil => exact absurd hc List.not_mem_nil
  | @cons s _ _ e es step _ ih =>
    obtain ⟨e', he', hc'⟩ := List.mem_filterMap.mp hc
    rcases List.mem_cons.mp he' with rfl | hmem
    · exact step.offending_mem hc'
    · have := ih (List.mem_filterMap.mpr ⟨e', hmem, hc'⟩)
      rw [step.ahead_eq, List.map_append]
      exact List.mem_append_right _ this

/-- What lies ahead only gets shorter, and by as much as is consumed. -/
theorem rest_length (h : Run s es s') :
    s.rest.length = s'.rest.length + (consumedBy es).length := by
  have := congrArg List.length h.ahead_eq
  simp only [State.ahead, List.length_append, List.length_cons] at this
  omega

end Run

end Yurin.Parser
