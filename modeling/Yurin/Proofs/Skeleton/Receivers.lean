import Yurin.Proofs.Parser.LockstepDeclarations
import Yurin.Proofs.Parser.Whole
import Yurin.Proofs.Skeleton.RoundTrip

/-!
# Receivers in front of names

The name of a function or a property may stand behind a receiver and a dot, which makes one mark
with that of a nullable receiver (`dottedReceiver`). There are two ways to read such a receiver.

* Without `exist`, the parts of the dotted name are collected, and the last of them is the name
  (`named_receives`). Every receiver is found as it is written.
* With `exist`, the receiver is read as a type. The mark `?.` is none of a type, so a nullable
  receiver is found without being nullable (`exist_receives`). Without a mark or arguments at its
  end, the type goes on into the name, and then there is a complaint (`exist_stumbles`).

A parser that stumbles over the receiver leaves a complaint in the end, whatever comes after it,
because complaints are only added (`file_stumbles`).
-/

namespace Yurin.Skeleton

open Yurin.Parser
open Lexer (isName)

/-! ## Pieces -/

/-- The mark between a receiver and the name. -/
def receiverMark (nullable : Bool) : Mark := if nullable then .safeDot else .dot

/-- A regular receiver with the mark after it. -/
def dottedReceiver (existential : Bool) (segments : List Bytes) (arguments : List TypeReference)
    (nullable : Bool) : List Piece :=
  (TypeReference.regular existential segments arguments false).pieces
    ++ [.mark (receiverMark nullable)]

theorem textOf_dottedReceiver (existential nullable : Bool) (segments : List Bytes)
    (arguments : List TypeReference) :
    textOf (dottedReceiver existential segments arguments nullable) =
      (TypeReference.regular existential segments arguments nullable).text ++ utf8 "." := by
  rw [dottedReceiver, textOf_append, TypeReference.textOf_pieces, TypeReference.text,
    TypeReference.text]
  cases nullable
  · rfl
  · simp only [Bool.false_eq_true, if_false, if_true, List.append_nil, List.append_assoc]
    rfl

theorem dottedPieces_snoc {parts : List Bytes} (hne : parts ≠ []) (n : Bytes) :
    dottedPieces (parts ++ [n]) = dottedPieces parts ++ [.mark .dot, .name n] := by
  obtain ⟨m, rest, rfl⟩ := List.exists_cons_of_ne_nil hne
  rw [List.cons_append, dottedPieces_cons, dottedPieces_cons, List.flatMap_append]
  rfl

/-- An existential receiver without arguments and its name are the pieces of a longer type. -/
theorem dottedReceiver_bare {segments : List Bytes} (hne : segments ≠ []) (name : Bytes)
    (existential : Bool) :
    dottedReceiver existential segments [] false ++ [.name name] =
      (TypeReference.regular existential (segments ++ [name]) [] false).pieces := by
  simp only [dottedReceiver, pieces_regular, namedPieces, dottedPieces_snoc hne, List.append_assoc]
  rfl

/-- A list of pieces whose last one may stand before a dot. -/
def EndsBeforeDot (ps : List Piece) : Prop :=
  ∃ before last, ps = before ++ [last] ∧ last.kind.allows 46 = true

theorem dottedPieces_endsBeforeDot {parts : List Bytes} (hne : parts ≠ []) :
    EndsBeforeDot (dottedPieces parts) := by
  obtain ⟨before, n, rfl⟩ : ∃ before n, parts = before ++ [n] :=
    ⟨_, _, (List.dropLast_append_getLast hne).symm⟩
  by_cases hnil : before = []
  · subst hnil
    exact ⟨[], .name n, rfl, rfl⟩
  · rw [dottedPieces_snoc hnil]
    exact ⟨dottedPieces before ++ [.mark .dot], .name n, by simp, rfl⟩

theorem regular_endsBeforeDot (existential : Bool) {segments : List Bytes} (hne : segments ≠ [])
    (arguments : List TypeReference) :
    EndsBeforeDot (TypeReference.regular existential segments arguments false).pieces := by
  have hfront {ps : List Piece} (front : List Piece) (h : EndsBeforeDot ps) :
      EndsBeforeDot (front ++ ps) := by
    obtain ⟨before, last, rfl, hlast⟩ := h
    exact ⟨front ++ before, last, (List.append_assoc ..).symm, hlast⟩
  rw [pieces_regular, namedPieces, if_neg Bool.false_ne_true, List.append_nil]
  refine hfront _ ?_
  cases arguments with
  | nil =>
    rw [List.isEmpty_nil, if_pos rfl, List.append_nil]
    exact dottedPieces_endsBeforeDot hne
  | cons t rest =>
    rw [List.isEmpty_cons, if_neg Bool.false_ne_true]
    exact hfront _ ⟨_, .mark .rightAngle, rfl, rfl⟩

/-- What follows the last piece matters to this piece only. -/
theorem EndsBeforeDot.linked {ps : List Piece} (h : EndsBeforeDot ps) {next : Option UInt8}
    (hps : Linked ps next) : Linked ps (some 46) := by
  obtain ⟨before, last, rfl, hlast⟩ := h
  obtain ⟨hbefore, hproper, -⟩ := linked_append.mp hps
  refine linked_append.mpr ⟨hbefore, hproper, ?_, trivial⟩
  rintro b ⟨⟩
  exact hlast

/-- A receiver and the name after it. -/
theorem solid_dottedReceiver {existential nullable : Bool} {segments : List Bytes}
    {arguments : List TypeReference}
    (hw : (TypeReference.regular existential segments arguments nullable).isWritable = true)
    {ps : List Piece} (hps : Phrase ps) :
    Solid (dottedReceiver existential segments arguments nullable ++ ps) := by
  have htype := TypeReference.phrase (.regular existential segments arguments false) hw
  have hne : segments ≠ [] := (isWritable_regular.mp hw).1
  refine ⟨fun next => ?_, fun next hn => ?_⟩
  · rw [dottedReceiver, List.append_assoc]
    exact (htype.begins.append _).allows_blank next
  · have hparted := htype.linked (some 63) (parted_byte rfl rfl)
    have hmark : Linked (TypeReference.regular existential segments arguments false).pieces
        (Piece.mark (receiverMark nullable)).text.head? := by
      cases nullable with
      | false => exact (regular_endsBeforeDot existential hne arguments).linked hparted
      | true => exact hparted
    rw [dottedReceiver, List.append_assoc, linked_append]
    refine ⟨hmark, .mark (by cases nullable <;> decide), ?_, hps.linked next hn⟩
    exact hps.begins.allows_mark _ next

/-! ## Receivers that are found -/

section Found

variable {n : Nat} {P : Productions} {segments : List Bytes} {arguments : List TypeReference}

theorem receiverDot_yields (nullable : Bool) :
    Yields receiverDot [.mark (receiverMark nullable)] (fun _ => True) (· = nullable) := by
  intro mode s qs tail hb _
  unfold receiverDot
  cases nullable with
  | true =>
    refine (accept_yields (p := .mark .safeDot) rfl nofun).then (.refl s) hb trivial ?_
    rintro _ s₁ rfl hc hb₁
    exact ⟨rfl, hc, hb₁⟩
  | false =>
    have hb : s.Before (.mark .dot :: qs) tail := hb
    refine (accept_absent (.mark .safeDot)).then (.refl s) hb nofun ?_
    rintro _ s₁ rfl hc hb₁
    refine (accept_absent (.mark .nullable)).then hc hb₁ nofun ?_
    rintro _ s₂ rfl hc hb₂
    exact (expectUnit_yields .dot).then hc hb₂ trivial fun _ s₃ _ hc hb₃ => ⟨rfl, hc, hb₃⟩

/-- A dotted name behind which no receiver ends has the name as its last part. -/
theorem dottedReceiver_yields (hne : segments ≠ []) (name : Bytes) :
    Yields (receiverAndName P) (dottedPieces (segments ++ [name])) EndsName
      (ReceiverOf (some (.regular false segments [] false)) name) := by
  intro mode s qs tail hb hn
  have hopens : opening (dottedPieces (segments ++ [name]) ++ qs) tail = .identifier := by
    obtain ⟨m, rest, rfl⟩ := List.exists_cons_of_ne_nil hne
    rw [List.cons_append, dottedPieces_cons]
    rfl
  unfold receiverAndName
  rw [ensures_bind, ensures_isAtAny, ensures_ite, hb.kind_eq, hopens, if_neg (by decide)]
  refine (dottedName_yields (by simp)).then (.refl s) hb hn.dot ?_
  rintro _ s₁ ⟨⟨parts⟩, rfl, hparts⟩ hc hb₁
  obtain ⟨front, last, rfl, hfront, hlast⟩ := List.map_eq_append_iff.mp hparts
  obtain ⟨i, rfl, hi⟩ := List.map_eq_singleton_iff.mp hlast
  rw [ensures_bind, ensures_isAt, ensures_ite, hb₁.kind_eq, if_neg (by simpa using hn.leftAngle),
    ensures_bind, ensures_isAt, ensures_bind, ensures_nextKind, ensures_ite, hb₁.kind_eq,
    if_neg (by simp [hn.safeDot])]
  simp only [List.dropLast_concat, List.getLast?_concat]
  obtain _ | ⟨first, more⟩ := front
  · exact absurd hfront.symm hne
  exact ⟨⟨congrArg (fun names => some (TypeReference.regular false names [] false)) hfront, i, rfl,
    hi⟩, hc, hb₁⟩

/-- **A receiver without `exist`** is found as it is written. -/
theorem named_receives (hT : ReparsesTypes n P.type) (hne : segments ≠ [])
    (hw : ∀ t ∈ arguments, t.isWritable = true)
    (hsize : size (commaPieces (arguments.map TypeReference.pieces)) ≤ n) (nullable : Bool)
    (name : Bytes) :
    Receives P (dottedReceiver false segments arguments nullable)
      (some (.regular false segments arguments nullable)) name := by
  have hpieces : dottedReceiver false segments arguments nullable ++ [.name name] =
      dottedPieces segments ++ ((if arguments.isEmpty then []
        else .mark .leftAngle :: commaPieces (arguments.map TypeReference.pieces)
          ++ [.mark .rightAngle]) ++ [.mark (receiverMark nullable), .name name]) := by
    simp [dottedReceiver, pieces_regular, namedPieces]
  have hopens (qs : List Piece) (tail : List Lexeme) :
      opening ((dottedReceiver false segments arguments nullable ++ [.name name]) ++ qs) tail =
        .identifier := by
    obtain ⟨m, rest, rfl⟩ := List.exists_cons_of_ne_nil hne
    rw [hpieces, dottedPieces_cons]
    rfl
  refine ⟨?_, fun qs tail => by rw [hopens]; decide⟩
  by_cases hplain : arguments = [] ∧ nullable = false
  · obtain ⟨rfl, rfl⟩ := hplain
    rw [hpieces, List.isEmpty_nil, if_pos rfl, List.nil_append]
    exact (dottedPieces_snoc hne name) ▸ dottedReceiver_yields hne name
  intro mode s qs tail hb hn
  unfold receiverAndName
  rw [ensures_bind, ensures_isAtAny, ensures_ite, hb.kind_eq, hopens, if_neg (by decide)]
  rw [hpieces, List.append_assoc] at hb
  cases arguments with
  | nil =>
    obtain rfl : nullable = true := by simpa using hplain
    have hb : s.Before (dottedPieces segments ++ (.mark .safeDot :: .name name :: qs)) tail := hb
    refine (dottedName_yields hne).then (.refl s) hb (by simp) ?_
    rintro _ s₁ ⟨⟨parts⟩, rfl, hparts⟩ hc hb₁
    rw [ensures_bind, ensures_isAt, ensures_ite, hb₁.kind_eq, if_neg (by simp), ensures_bind,
      ensures_isAt, ensures_bind, ensures_nextKind, ensures_ite, hb₁.kind_eq, hb₁.next_kind rfl,
      if_pos (by rfl)]
    refine advance_mark_then hc hb₁ fun _ s₂ _ hc hb₂ => ?_
    refine advance_piece_then hc hb₂ rfl (by simp [Piece.name]) fun t s₃ _ ht hc hb₃ => ?_
    exact ⟨⟨congrArg (fun names => some (TypeReference.regular false names [] true)) hparts, ⟨t⟩,
      rfl, ht⟩, hc, hb₃⟩
  | cons t rest =>
    rw [List.isEmpty_cons, if_neg Bool.false_ne_true, List.append_assoc] at hb
    refine (dottedName_yields hne).then (.refl s) hb (by simp) ?_
    rintro _ s₁ ⟨⟨parts⟩, rfl, hparts⟩ hc hb₁
    rw [ensures_bind, ensures_isAt, ensures_ite, hb₁.kind_eq, if_pos (by rfl)]
    unfold genericReceiver
    refine (typeArguments_yields hT (by simp) hw hsize).then hc hb₁ trivial
      fun es s₂ hes hc hb₂ => ?_
    have hb₂ : s₂.Before ([.mark (receiverMark nullable)] ++ (.name name :: qs)) tail := hb₂
    refine (receiverDot_yields nullable).then hc hb₂ trivial ?_
    rintro _ s₃ rfl hc hb₃
    refine (expectIdentifier_yields name).then hc hb₃ trivial ?_
    rintro _ s₄ ⟨i, rfl, hi⟩ hc hb₄
    refine ⟨⟨congrArg some ?_, i, rfl, hi⟩, hc, hb₄⟩
    rw [typeReference, hes]
    exact congrArg (fun names => TypeReference.regular false names _ _) hparts

/-- **A receiver with `exist`** is found as a type. Its mark of nullable types is lost, and without
this mark it needs arguments. -/
theorem exist_receives (hT : ReparsesTypes n P.type) (hne : segments ≠ [])
    (hw : ∀ t ∈ arguments, t.isWritable = true)
    (hsize : size (commaPieces (arguments.map TypeReference.pieces)) ≤ n) {nullable : Bool}
    (hclosed : arguments = [] → nullable = true) (name : Bytes) :
    Receives (grammar P) (dottedReceiver true segments arguments nullable)
      (some (.regular true segments arguments false)) name := by
  have hopens (qs : List Piece) (tail : List Lexeme) :
      opening ((dottedReceiver true segments arguments nullable ++ [.name name]) ++ qs) tail =
        .keyword .exist := rfl
  refine ⟨fun mode s qs tail hb hn => ?_, fun qs tail => by rw [hopens]; decide⟩
  unfold receiverAndName
  rw [ensures_bind, ensures_isAtAny, ensures_ite, hb.kind_eq, hopens, if_pos (by decide)]
  have hb : s.Before ((TypeReference.regular true segments arguments false).pieces ++
      (.mark (receiverMark nullable) :: .name name :: qs)) tail := by
    simpa [dottedReceiver] using hb
  have hends : EndsRegular arguments (.mark (receiverMark nullable)) := by
    refine ⟨fun hbare => ?_, by cases nullable <;> nofun⟩
    rw [hclosed hbare]
    exact ⟨nofun, nofun⟩
  unfold explicitReceiver
  refine (typeExpr_regular hT true false hne hw hsize).then (.refl s) hb hends ?_
  rintro _ s₁ ⟨e, rfl, he⟩ hc hb₁
  rw [ensures_bind, ensures_isAtAny, ensures_ite, hb₁.kind_eq,
    if_pos (by cases nullable <;> rfl)]
  refine advance_mark_then hc hb₁ fun _ s₂ _ hc hb₂ => ?_
  refine (expectIdentifier_yields name).then hc hb₂ trivial ?_
  rintro _ s₃ ⟨i, rfl, hi⟩ hc hb₃
  exact ⟨⟨congrArg some he, i, rfl, hi⟩, hc, hb₃⟩

end Found

/-! ## Receivers that are not found -/

/-- Run from the state, the parser ends with a complaint. -/
def Complains {α : Type} (p : Parser α) (mode : LineMode) (s : State) : Prop :=
  Ensures p mode s fun _ s' => s'.complaints ≠ []

/-- Where the pieces lie ahead, the parser ends with a complaint. -/
def Stumbles {α : Type} (p : Parser α) (ps : List Piece) (tail : List Lexeme) : Prop :=
  ∀ ⦃mode : LineMode⦄ ⦃s : State⦄, s.recovering = false → s.Before ps tail → Complains p mode s

section Stumbles

variable {α β : Type} {n : Nat} {P : Productions} {mode : LineMode} {s : State} {ps qs : List Piece}
  {segments : List Bytes} {name : Bytes} {tail : List Lexeme}

/-- Complaints are not taken back. -/
theorem Complains.bind {p : Parser α} (h : Complains p mode s) {f : α → Parser β}
    (hf : ∀ a, Grows mode (f a)) : Complains (p >>= f) mode s := by
  refine (ensures_bind ..).mpr (Ensures.mono h fun a s' hs' => ?_)
  refine (hf a s').mono fun _ _ hgrow hnil => hs' ?_
  rw [hnil] at hgrow
  exact List.suffix_nil.mp hgrow

theorem complains_expect_ {k : Kind} (hs : s.recovering = false)
    (hk : s.current.token.kind ≠ k) : Complains (expect_ k) mode s := by
  unfold Complains expect_ expect
  rw [ensures_bind, ensures_bind, ensures_isAt, ensures_ite, if_neg (by simpa using hk),
    ensures_bind, ensures_complain, State.complain, if_neg (by simp [hs])]
  exact List.cons_ne_nil _ _

/-- The kinds of tokens that come after a name that is read as a part of a type. -/
structure EndsSwallowed (k : Kind) : Prop where
  name : EndsName k
  nullable : k ≠ .mark .nullable

/-- **A receiver with `exist` that nothing ends** is read on into the name, and then the dot after
it is missing. -/
theorem exist_stumbles (hT : ReparsesTypes n P.type) (hne : segments ≠ [])
    (hn : EndsSwallowed (opening qs tail)) :
    Stumbles (receiverAndName (grammar P))
      (dottedReceiver true segments [] false ++ [.name name] ++ qs) tail := by
  intro mode s hs hb
  have hkind : s.current.token.kind = .keyword .exist := hb.kind_eq
  rw [dottedReceiver_bare hne] at hb
  unfold Complains receiverAndName
  rw [ensures_bind, ensures_isAtAny, ensures_ite, hkind, if_pos (by decide)]
  unfold explicitReceiver
  have hends : EndsRegular [] (opening qs tail) :=
    ⟨fun _ => ⟨hn.name.dot, hn.name.leftAngle⟩, hn.nullable⟩
  have hsize : size (commaPieces (([] : List TypeReference).map TypeReference.pieces)) ≤ n :=
    Nat.zero_le n
  refine (typeExpr_regular hT true false (by simp) (by simp) hsize).then (.refl s) hb hends
    fun receiver s₁ _ hc hb₁ => ?_
  rw [ensures_bind, ensures_isAtAny, ensures_ite, hb₁.kind_eq,
    if_neg (by simp [hn.name.dot, hn.name.safeDot])]
  exact (complains_expect_ (hc.calm hs) (hb₁.kind_eq ▸ hn.name.dot)).bind fun _ => .pure _

/-! What stumbles over the receiver stumbles over the declaration, and over the file. -/

theorem receiverHead_stumbles {w : Keyword} (hopens : opening ps tail ≠ .mark .leftAngle)
    (hR : Stumbles (receiverAndName P) ps tail)
    {f : Token → Option (List Identifier) → Option TypeExpr × Option Identifier → Parser β}
    (hf : ∀ mode keyword generics r, Grows mode (f keyword generics r)) :
    Stumbles (do f (← advance) (← typeParameters?) (← receiverAndName P)) (.word w :: ps) tail := by
  intro mode s hs hb
  refine advance_word_then (.refl s) hb fun keyword s₁ _ hc hb₁ => ?_
  refine (typeParameters?_yields []).then hc hb₁ hopens fun generics s₂ _ hc hb₂ => ?_
  exact (hR (hc.calm hs) hb₂).bind fun r => hf mode keyword generics r

theorem functionDeclaration_stumbles (hP : P.Lockstep) (ts : List Token) {w : Keyword}
    (hopens : opening ps tail ≠ .mark .leftAngle) (hR : Stumbles (receiverAndName P) ps tail) :
    Stumbles (functionDeclaration P ts) (.word w :: ps) tail := by
  refine receiverHead_stumbles hopens hR fun mode keyword generics r => ?_
  refine (requiredParameters_lockstep hP).grows.bind fun _ => ?_
  refine (typeAfter?_lockstep hP rfl).grows.bind fun _ => ?_
  refine (typesAfter?_lockstep hP rfl).grows.bind fun _ => ?_
  exact (body?_lockstep hP).grows.bind fun _ => .pure _

theorem propertyDeclaration_stumbles (hP : P.Lockstep) (ts : List Token) {w : Keyword}
    (hopens : opening ps tail ≠ .mark .leftAngle) (hR : Stumbles (receiverAndName P) ps tail) :
    Stumbles (propertyDeclaration P ts) (.word w :: ps) tail := by
  refine receiverHead_stumbles hopens hR fun mode keyword generics r => ?_
  refine (typeAfter?_lockstep hP rfl).grows.bind fun _ => ?_
  refine (typesAfter?_lockstep hP rfl).grows.bind fun _ => ?_
  refine (valueAfterEq?_lockstep hP).grows.bind fun _ => ?_
  exact (collect_lockstep (accessorStep_lockstep hP)).grows.bind fun _ => .pure _

theorem declarationStep_stumbles (hopens : (opening ps tail).startsDeclaration = true)
    (hd : Stumbles P.declaration ps tail) : Stumbles (declarationStep P) ps tail := by
  intro mode s hs hb
  have hne : opening ps tail ≠ .eof := by
    intro h
    rw [h] at hopens
    cases hopens
  unfold Complains declarationStep progress
  rw [ensures_bind, ensures_isAt, ensures_ite, hb.kind_eq, if_neg (by simpa using hne),
    ensures_bind, ensures_consumed]
  refine (hd hs hb).bind fun found => ?_
  exact grows_consumed.bind fun _ => .ite ((grows_recoverTo _ _).bind fun _ => .pure _) (.pure _)

theorem file_stumbles (hP : P.Lockstep) (hopens : (opening ps tail).startsDeclaration = true)
    (hd : Stumbles P.declaration ps tail) : Stumbles (file P) ps tail := by
  intro mode s hs hb
  have hends : EndsDeclaration (opening ps tail) := .inr (.inr hopens)
  unfold file
  refine (packageHeader?_yields []).then (.refl s) hb hends fun header s₁ _ hc hb₁ => ?_
  refine imports_absent.then hc hb₁ hends fun imports s₂ _ hc hb₂ => ?_
  have hloop : Complains (collect (declarationStep P)) mode s₂ := by
    unfold Complains collect
    rw [ensures_bind, ensures_get]
    refine (declarationStep_stumbles hopens hd (hc.calm hs) hb₂).bind fun found => .ite ?_ (.pure _)
    exact (collectUpTo_lockstep (declarationStep_lockstep hP) _).grows.bind fun _ => .pure _
  exact hloop.bind fun _ => .pure _

end Stumbles

end Yurin.Skeleton
