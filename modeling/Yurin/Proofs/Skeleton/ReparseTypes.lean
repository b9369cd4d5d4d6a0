import Yurin.Parser
import Yurin.Proofs.Parser.Spelled
import Yurin.Proofs.Skeleton.Pieces
import Yurin.Skeleton.Build

/-!
# Parsing the types of a skeleton

Names, types and lists of types are found again by their parsers. `ReparsesTypes n type`: the parser
`type` finds every type that has at most `n` tokens. `typeExpr_reparses` goes from `n` to `n + 1`,
since what is inside a type has fewer tokens than the type.
-/

namespace Yurin.Skeleton

open Yurin.Parser

/-! ## Names -/

theorem dottedStep_finds (n : Bytes) :
    FindsItem dottedStep [.mark .dot, .name n] (fun _ => True) fun i => i.name = n := by
  intro mode s qs tail hb _
  unfold dottedStep
  rw [ensures_bind, ensures_isAt, ensures_bind, ensures_nextKind, ensures_ite, hb.kind_eq,
    hb.next_kind rfl, if_pos (by rfl)]
  refine advance_mark_then (.refl s) hb fun _ s₁ _ hc hb₁ => ?_
  refine advance_piece_then hc hb₁ rfl nofun fun t s₂ _ ht hc hb₂ => ?_
  exact ⟨⟨⟨t⟩, rfl, rfl, ht⟩, hc, hb₂⟩

theorem dottedRest_yields (names : List Bytes) :
    Yields dottedRest (names.flatMap fun n => [.mark .dot, .name n]) (· ≠ .mark .dot)
      fun ids => ids.map Identifier.name = names := by
  intro mode s qs tail hb hn
  refine (collect_items hb (fun n _ => dottedStep_finds n) (fun _ _ => by simp)
    (fun _ _ _ _ => trivial) trivial fun s hb => ?_).mono ?_
  · unfold dottedStep
    rw [ensures_bind, ensures_isAt, ensures_bind, ensures_nextKind, ensures_ite, hb.kind_eq,
      if_neg (by simp [hn])]
    exact ⟨rfl, rfl⟩
  · rintro ids s' ⟨hids, hc, hb'⟩
    have hnames : ids.map Identifier.name = names := by
      rw [← List.forall₂_eq_eq_eq, List.forall₂_map_left_iff]
      exact hids.flip
    exact ⟨hnames, hc, hb'⟩

theorem dottedPieces_cons (n : Bytes) (rest : List Bytes) :
    dottedPieces (n :: rest) = .name n :: rest.flatMap fun n => [.mark .dot, .name n] := by
  induction rest generalizing n with
  | nil => rfl
  | cons m rest ih =>
    have h : dottedPieces (n :: m :: rest) =
        .name n :: .mark .dot :: dottedPieces (m :: rest) := rfl
    rw [h, ih, List.flatMap_cons]
    rfl

theorem dottedName_yields {parts : List Bytes} (hne : parts ≠ []) :
    Yields dottedName (dottedPieces parts) (· ≠ .mark .dot)
      fun d => ∃ name, d = some name ∧ name.segments = parts := by
  obtain ⟨n, rest, rfl⟩ := List.exists_cons_of_ne_nil hne
  intro mode s qs tail hb hn
  rw [dottedPieces_cons, List.cons_append] at hb
  unfold dottedName
  refine (expectIdentifier_yields n).then (.refl s) hb trivial ?_
  rintro _ s₁ ⟨first, rfl, hfirst⟩ hc hb₁
  refine (dottedRest_yields rest).then hc hb₁ hn fun ids s₂ hids hc hb₂ => ?_
  refine ⟨⟨_, rfl, ?_⟩, hc, hb₂⟩
  rw [DottedName.segments, List.map_cons, hfirst, hids]

/-! ## Types -/

/-- The kinds of tokens that do not continue a type. -/
structure EndsType (k : Kind) : Prop where
  dot : k ≠ .mark .dot
  leftAngle : k ≠ .mark .leftAngle
  nullable : k ≠ .mark .nullable

theorem endsType_mark {m : Mark} (h : m ∉ [.dot, .leftAngle, .nullable]) : EndsType (.mark m) := by
  simp only [List.mem_cons, List.not_mem_nil, or_false, not_or] at h
  exact ⟨by simpa using h.1, by simpa using h.2.1, by simpa using h.2.2⟩

/-- The kinds of tokens that do not continue a regular type with some arguments. Behind arguments
neither a dot nor a bracket does. -/
structure EndsRegular (arguments : List TypeReference) (k : Kind) : Prop where
  bare : arguments = [] → k ≠ .mark .dot ∧ k ≠ .mark .leftAngle
  nullable : k ≠ .mark .nullable

theorem EndsType.regular {k : Kind} (h : EndsType k) (arguments : List TypeReference) :
    EndsRegular arguments k :=
  ⟨fun _ => ⟨h.dot, h.leftAngle⟩, h.nullable⟩

/-- A parsed type that makes a reference. -/
def RefersTo (t : TypeReference) (found : Option TypeExpr) : Prop :=
  ∃ e, found = some e ∧ typeReference e = t

/-- A parser of types finds every type of at most `n` tokens. -/
def ReparsesTypes (n : Nat) (type : Parser (Option TypeExpr)) : Prop :=
  ∀ ⦃t : TypeReference⦄, t.isWritable = true → size t.pieces ≤ n →
    Yields type t.pieces EndsType (RefersTo t)

theorem isWritable_regular {existential nullable : Bool} {segments : List Bytes}
    {arguments : List TypeReference} :
    (TypeReference.regular existential segments arguments nullable).isWritable = true ↔
      segments ≠ [] ∧ segments.all Lexer.isName = true ∧ ∀ t ∈ arguments, t.isWritable = true := by
  simp only [TypeReference.isWritable, Bool.and_eq_true, Bool.not_eq_true',
    List.isEmpty_eq_false_iff, areWritable_iff, and_assoc]

/-- The kinds of tokens that a type begins with. -/
theorem opening_type {t : TypeReference} (h : t.isWritable = true) (qs : List Piece)
    (tail : List Lexeme) :
    opening (t.pieces ++ qs) tail ∈
      [.identifier, .keyword .exist, .keyword .dynamic, .keyword .nothing] := by
  cases t with
  | regular existential segments arguments nullable =>
    obtain ⟨n, rest, rfl⟩ := List.exists_cons_of_ne_nil (isWritable_regular.mp h).1
    rw [TypeReference.pieces, dottedPieces_cons]
    cases existential <;> simp
  | dynamic => simp [TypeReference.pieces]
  | nothing => simp [TypeReference.pieces]

theorem size_type_pos {t : TypeReference} (h : t.isWritable = true) : 0 < size t.pieces := by
  cases t with
  | regular existential segments arguments nullable =>
    obtain ⟨n, rest, rfl⟩ := List.exists_cons_of_ne_nil (isWritable_regular.mp h).1
    rw [TypeReference.pieces, dottedPieces_cons]
    simp only [size_append, size_name]
    omega
  | dynamic => simp [TypeReference.pieces]
  | nothing => simp [TypeReference.pieces]

section Types

variable {n : Nat} {type : Parser (Option TypeExpr)}

theorem typeStep_listed (hT : ReparsesTypes n type) {t : TypeReference} (ht : t.isWritable = true)
    (hsize : size t.pieces ≤ n) :
    FindsListed (typeStep type) t.pieces EndsType fun e => typeReference e = t := by
  intro mode s qs tail hb hn hq
  unfold typeStep
  refine (hT ht hsize).then (.refl s) hb hn ?_
  rintro _ s₁ ⟨e, rfl, he⟩ hc hb₁
  exact accept_comma (fun e => typeReference e = t) he hc hb₁ hq

theorem typeArgumentStep_listed (hT : ReparsesTypes n type) {t : TypeReference}
    (ht : t.isWritable = true) (hsize : size t.pieces ≤ n) :
    FindsListed (typeArgumentStep type) t.pieces EndsType fun e => typeReference e = t := by
  intro mode s qs tail hb hn hq
  unfold typeArgumentStep
  have hopen := opening_type ht qs tail
  rw [ensures_bind, ensures_isAtAny, ensures_ite, hb.kind_eq, if_neg]
  · exact typeStep_listed hT ht hsize hb hn hq
  · intro h
    revert hopen
    simp only [List.contains_iff_mem, List.mem_cons, List.not_mem_nil, or_false] at h ⊢
    rcases h with h | h <;> simp [h]

/-- The references of some types, item by item. -/
theorem typeReferences_eq {types : List TypeReference} {es : List TypeExpr}
    (h : List.Forall₂ (fun t e => typeReference e = t) types es) : typeReferences es = types := by
  induction h with
  | nil => rfl
  | cons he _ ih => rw [typeReferences, he, ih]

/-- The types of a list, and where they end. -/
theorem types_yields {step : Parser (Step TypeExpr)} {types : List TypeReference} (hne : types ≠ [])
    (hw : ∀ t ∈ types, t.isWritable = true)
    (hfind : ∀ t ∈ types, FindsListed step t.pieces EndsType fun e => typeReference e = t) :
    Yields (collect step) (commaPieces (types.map TypeReference.pieces))
      (fun k => EndsType k ∧ k ≠ .mark .comma) fun es => typeReferences es = types := by
  intro mode s qs tail hb hn
  refine (collect_commas hne hfind (fun t ht => size_type_pos (hw t ht))
    (endsType_mark (by decide)) (fun _ h => h) hb hn).mono ?_
  rintro es s' ⟨hes, hc, hb'⟩
  exact ⟨typeReferences_eq hes, hc, hb'⟩

/-- A type of a list has no more tokens than the list. -/
theorem size_commas_le {items : List (List Piece)} {ps : List Piece} (h : ps ∈ items) :
    size ps ≤ size (commaPieces items) := by
  induction items with
  | nil => cases h
  | cons qs rest ih =>
    cases rest with
    | nil =>
      rw [List.mem_singleton] at h
      exact Nat.le_of_eq (congrArg size h)
    | cons rs rest =>
      have hsize : size (commaPieces (qs :: rs :: rest)) =
          size qs + 1 + size (commaPieces (rs :: rest)) := by
        rw [commaPieces, separated]
        · simp only [commaPieces, size_append, size_mark, size_blank, size_nil]
        · simp
      rcases List.mem_cons.mp h with rfl | h
      · omega
      · have := ih h
        omega

theorem typeArguments_yields (hT : ReparsesTypes n type) {types : List TypeReference}
    (hne : types ≠ []) (hw : ∀ t ∈ types, t.isWritable = true)
    (hsize : size (commaPieces (types.map TypeReference.pieces)) ≤ n) :
    Yields (typeArguments type)
      (.mark .leftAngle :: commaPieces (types.map TypeReference.pieces) ++ [.mark .rightAngle])
      (fun _ => True) fun es => typeReferences es = types := by
  intro mode s qs tail hb _
  simp only [List.cons_append, List.append_assoc] at hb
  unfold typeArguments
  refine advance_mark_then (.refl s) hb fun _ s₁ _ hc hb₁ => ?_
  rw [ensures_inBrackets]
  have hfind : ∀ t ∈ types,
      FindsListed (typeArgumentStep type) t.pieces EndsType fun e => typeReference e = t :=
    fun t ht => typeArgumentStep_listed hT (hw t ht)
      (Nat.le_trans (size_commas_le (List.mem_map_of_mem ht)) hsize)
  refine (types_yields hne hw hfind).then hc hb₁ ⟨endsType_mark (by decide), nofun⟩
    fun es s₂ hes hc hb₂ => ?_
  exact (expectUnit_yields .rightAngle).then hc hb₂ trivial fun _ s₃ _ hc hb₃ => ⟨hes, hc, hb₃⟩

/-- A mark that has to stand on its line does so where it is a piece. -/
theorem sameLine_mark {s : State} {m : Mark} {qs : List Piece} {tail : List Lexeme}
    (mode : LineMode) (hm : m = .leftAngle ∨ m = .nullable) (hb : s.Before (.mark m :: qs) tail) :
    (s.current.token.kind == .mark m && !(mode == .significant && s.current.afterBreak)) =
      true := by
  obtain ⟨hspell, -⟩ := hb.current rfl
  have hline : s.current.afterBreak = false := hspell.inline (by
    rcases hm with rfl | rfl
    · exact .inl rfl
    · exact .inr rfl)
  rw [hspell.kind, hline]
  simp [Piece.mark]

/-- No mark stands on the line where another token comes. -/
theorem sameLine_absent {s : State} {k : Kind} {qs : List Piece} {tail : List Lexeme}
    (mode : LineMode) (hb : s.Before qs tail) (hk : opening qs tail ≠ k) :
    ¬ (s.current.token.kind == k && !(mode == .significant && s.current.afterBreak)) = true := by
  rw [hb.kind_eq]
  simp [hk]

theorem typeArguments?_yields (hT : ReparsesTypes n type) {types : List TypeReference}
    (hw : ∀ t ∈ types, t.isWritable = true)
    (hsize : size (commaPieces (types.map TypeReference.pieces)) ≤ n) :
    Yields (typeArguments? type)
      (if types.isEmpty then []
        else .mark .leftAngle :: commaPieces (types.map TypeReference.pieces) ++
          [.mark .rightAngle])
      (fun k => types = [] → k ≠ .mark .leftAngle) fun es => typeReferences es = types := by
  intro mode s qs tail hb hn
  unfold typeArguments?
  cases types with
  | nil =>
    rw [ensures_bind, ensures_isAtSameLine, ensures_ite, if_neg (sameLine_absent mode hb (hn rfl))]
    exact ⟨rfl, .refl s, hb⟩
  | cons t rest =>
    rw [if_neg (by simp)] at hb
    have hline : (s.current.token.kind == .mark .leftAngle &&
        !(mode == .significant && s.current.afterBreak)) = true :=
      sameLine_mark mode (.inl rfl) hb
    rw [ensures_bind, ensures_isAtSameLine, ensures_ite, if_pos hline]
    exact typeArguments_yields hT (by simp) hw hsize hb trivial

theorem nullableMark_yields (nullable : Bool) :
    Yields nullableMark (if nullable then [.mark .nullable] else []) (· ≠ .mark .nullable)
      (· = nullable) := by
  intro mode s qs tail hb hn
  unfold nullableMark
  cases nullable with
  | false =>
    rw [ensures_bind, ensures_isAtSameLine, ensures_ite, if_neg (sameLine_absent mode hb hn)]
    exact ⟨rfl, .refl s, hb⟩
  | true =>
    have hb : s.Before (.mark .nullable :: qs) tail := hb
    rw [ensures_bind, ensures_isAtSameLine, ensures_ite,
      if_pos (sameLine_mark mode (.inr rfl) hb)]
    exact advance_mark_then (.refl s) hb fun _ s₁ _ hc hb₁ => ⟨rfl, hc, hb₁⟩

/-- What comes after the word `exist` of a type, or the whole of a type without it. -/
def namedPieces (segments : List Bytes) (arguments : List TypeReference) (nullable : Bool) :
    List Piece :=
  dottedPieces segments
    ++ (if arguments.isEmpty then []
        else .mark .leftAngle :: commaPieces (arguments.map TypeReference.pieces)
          ++ [.mark .rightAngle])
    ++ (if nullable then [.mark .nullable] else [])

theorem pieces_regular (existential nullable : Bool) (segments : List Bytes)
    (arguments : List TypeReference) :
    (TypeReference.regular existential segments arguments nullable).pieces =
      (if existential then [.word .exist, .blank] else []) ++
        namedPieces segments arguments nullable := by
  rw [TypeReference.pieces, typePieces_eq, namedPieces, List.append_assoc, List.append_assoc,
    List.append_assoc]

/-- The arguments of a type have fewer tokens than the type. -/
theorem size_arguments_lt (existential nullable : Bool) {segments : List Bytes}
    (hne : segments ≠ []) (arguments : List TypeReference) :
    size (commaPieces (arguments.map TypeReference.pieces)) <
      size (TypeReference.regular existential segments arguments nullable).pieces := by
  obtain ⟨n, rest, rfl⟩ := List.exists_cons_of_ne_nil hne
  rw [pieces_regular, namedPieces, dottedPieces_cons]
  cases arguments with
  | nil =>
    simp only [List.map_nil, size_append, size_name, commaPieces, separated, size_nil]
    omega
  | cons t ts =>
    simp only [List.isEmpty_cons, Bool.false_eq_true, if_false, size_append, size_name,
      List.cons_append, size_mark]
    omega

theorem opening_arguments (arguments : List TypeReference) (qs : List Piece) (tail : List Lexeme) :
    opening ((if arguments.isEmpty then []
      else .mark .leftAngle :: commaPieces (arguments.map TypeReference.pieces)
        ++ [.mark .rightAngle]) ++ qs) tail =
      if arguments.isEmpty then opening qs tail else .mark .leftAngle := by
  split <;> rfl

theorem opening_nullable (nullable : Bool) (qs : List Piece) (tail : List Lexeme) :
    opening ((if nullable then [.mark .nullable] else []) ++ qs) tail =
      if nullable then .mark .nullable else opening qs tail := by
  split <;> rfl

theorem regularType_yields (hT : ReparsesTypes n type) (existential nullable : Bool)
    {segments : List Bytes} (hne : segments ≠ []) {arguments : List TypeReference}
    (hw : ∀ t ∈ arguments, t.isWritable = true)
    (hsize : size (commaPieces (arguments.map TypeReference.pieces)) ≤ n) :
    Yields (regularType type)
      (TypeReference.regular existential segments arguments nullable).pieces (EndsRegular arguments)
      (RefersTo (.regular existential segments arguments nullable)) := by
  intro mode s qs tail hb hn
  rw [pieces_regular, namedPieces] at hb
  simp only [List.append_assoc] at hb
  have hexist : Yields (accept (.keyword .exist))
      (if existential then [.word .exist, .blank] else [])
      (· ≠ .keyword .exist) (· = existential) := by
    cases existential with
    | true =>
      intro mode s qs tail hb _
      exact (accept_yields (p := .word .exist) rfl nofun hb trivial).mono
        fun b s' ⟨hb, hc, hbefore⟩ => ⟨hb, hc, hbefore.congr rfl⟩
    | false => exact accept_absent _
  unfold regularType
  refine hexist.then (.refl s) hb ?_ fun b s₁ hexist hc hb₁ => ?_
  · obtain ⟨n, rest, rfl⟩ := List.exists_cons_of_ne_nil hne
    rw [dottedPieces_cons]
    nofun
  refine (dottedName_yields hne).then hc hb₁ ?_ ?_
  · rw [opening_arguments, opening_nullable]
    split
    · split
      · nofun
      · exact (hn.bare (List.isEmpty_iff.mp ‹_›)).1
    · nofun
  rintro _ s₂ ⟨name, rfl, hname⟩ hc hb₂
  refine (typeArguments?_yields hT hw hsize).then hc hb₂ ?_ fun es s₃ hes hc hb₃ => ?_
  · rw [opening_nullable]
    intro hnil
    split
    · nofun
    · exact (hn.bare hnil).2
  refine (nullableMark_yields nullable).then hc hb₃ hn.nullable fun b s₄ hnull hc hb₄ => ?_
  refine ⟨⟨_, rfl, ?_⟩, hc, hb₄⟩
  rw [typeReference, hname, hes, hexist, hnull]

theorem typeExpr_regular (hT : ReparsesTypes n type) (existential nullable : Bool)
    {segments : List Bytes} (hne : segments ≠ []) {arguments : List TypeReference}
    (hw : ∀ t ∈ arguments, t.isWritable = true)
    (hsize : size (commaPieces (arguments.map TypeReference.pieces)) ≤ n) :
    Yields (typeExpr type) (TypeReference.regular existential segments arguments nullable).pieces
      (EndsRegular arguments) (RefersTo (.regular existential segments arguments nullable)) := by
  intro mode s qs tail hb hn
  have hregular := regularType_yields hT existential nullable hne hw hsize
  have hkind : s.current.token.kind = if existential then .keyword .exist else .identifier := by
    obtain ⟨m, rest, rfl⟩ := List.exists_cons_of_ne_nil hne
    rw [hb.kind_eq, pieces_regular, namedPieces, dottedPieces_cons]
    cases existential <;> rfl
  unfold typeExpr
  rw [ensures_bind, ensures_kind, hkind]
  cases existential <;> exact hregular hb hn

/-- **Types are found again**, with one more token than the types inside them. -/
theorem typeExpr_reparses (hT : ReparsesTypes n type) : ReparsesTypes (n + 1) (typeExpr type) := by
  intro t ht hsize mode s qs tail hb hn
  cases t with
  | regular existential segments arguments nullable =>
    obtain ⟨hne, -, harguments⟩ := isWritable_regular.mp ht
    have hlt := size_arguments_lt existential nullable hne arguments
    exact typeExpr_regular hT existential nullable hne harguments (by omega) hb
      (hn.regular arguments)
  | dynamic =>
    unfold typeExpr
    rw [ensures_bind, ensures_kind, hb.kind_eq]
    exact advance_word_then (.refl s) hb fun t s₁ _ hc hb₁ => ⟨⟨_, rfl, rfl⟩, hc, hb₁⟩
  | nothing =>
    unfold typeExpr
    rw [ensures_bind, ensures_kind, hb.kind_eq]
    exact advance_word_then (.refl s) hb fun t s₁ _ hc hb₁ => ⟨⟨_, rfl, rfl⟩, hc, hb₁⟩

/-- A type in parentheses is found as the type. -/
theorem typeExpr_parenthesized (hT : ReparsesTypes n type) {t : TypeReference}
    (ht : t.isWritable = true) (hsize : size t.pieces ≤ n) :
    Yields (typeExpr type) (.mark .leftParen :: t.pieces ++ [.mark .rightParen]) (fun _ => True)
      (RefersTo t) := by
  intro mode s qs tail hb _
  simp only [List.cons_append, List.append_assoc] at hb
  unfold typeExpr
  rw [ensures_bind, ensures_kind, hb.kind_eq]
  refine advance_mark_then (.refl s) hb fun _ s₁ _ hc hb₁ => ?_
  rw [ensures_bind, ensures_inBrackets]
  refine (hT ht hsize hb₁ (endsType_mark (by decide))).mono ?_
  rintro _ s₂ ⟨⟨e, rfl, he⟩, hc₂, hb₂⟩
  refine (expectUnit_yields .rightParen).then (hc.trans hc₂) hb₂ trivial fun _ s₃ _ hc hb₃ => ?_
  refine ⟨⟨_, rfl, ?_⟩, hc, hb₃⟩
  rw [typeReference, he]

end Types

end Yurin.Skeleton
