import Yurin.Proofs.Skeleton.Receivers

/-!
# Functions and properties with a receiver

`Extension`: a function or a property with a receiver and a name, and nothing else. Its source is
parsed to its skeleton (`ParsesAs`) as far as its receiver is found: `receiver_written` says for
which receivers it is, and what happens to the others.
-/

namespace Yurin.Skeleton

open Yurin.Parser
open Lexer (isName)

/-! ## Sources, skeletons and pieces -/

/-- A declaration that may have a receiver. -/
inductive Extension where
  | function
  | property
  deriving DecidableEq, Repr

namespace Extension

/-- The word that it begins with. -/
def keyword : Extension → Keyword
  | .function => .fun_
  | .property => .val

/-- What stands after its name. -/
def ending : Extension → List Piece
  | .function => parametersPieces []
  | .property => []

/-- A source with only a receiver and a name in it. -/
def source (receiver : TypeReference) (name : Bytes) : Extension → Bytes
  | .function => utf8 "fun " ++ receiver.text ++ utf8 "." ++ name ++ utf8 "()"
  | .property => utf8 "val " ++ receiver.text ++ utf8 "." ++ name

/-- The skeleton with only a receiver and a name in it. -/
def declaration (receiver : TypeReference) (name : Bytes) : Extension → Declaration
  | .function => .function [] (some receiver) name [] [] none []
  | .property => .property [] false (some receiver) name [] none []

def pieces (rs : List Piece) (name : Bytes) (x : Extension) : List Piece :=
  .word x.keyword :: .blank :: (rs ++ (.name name :: x.ending))

theorem textOf_pieces (existential nullable : Bool) (segments : List Bytes)
    (arguments : List TypeReference) (name : Bytes) (x : Extension) :
    textOf (x.pieces (dottedReceiver existential segments arguments nullable) name) =
      x.source (.regular existential segments arguments nullable) name := by
  have hreceiver := textOf_dottedReceiver existential nullable segments arguments
  rw [pieces, textOf_cons, textOf_cons, textOf_append, hreceiver]
  cases x
  · simp only [source, List.append_assoc]
    rfl
  · simp only [source, List.append_assoc, ending, textOf_cons, textOf_nil, List.append_nil]
    rfl

theorem linked_pieces {existential nullable : Bool} {segments : List Bytes}
    {arguments : List TypeReference}
    (hw : (TypeReference.regular existential segments arguments nullable).isWritable = true)
    {name : Bytes} (hname : isName name = true) (x : Extension) :
    Linked (x.pieces (dottedReceiver existential segments arguments nullable) name) none := by
  have hending : Part x.ending := by
    cases x with
    | function => exact part_parameters rfl
    | property => exact .nil
  have hsolid := solid_dottedReceiver hw ((phrase_name hname).append hending)
  exact (hsolid.word (by cases x <;> decide)).linked none nofun

/-- What comes after the name of an extension. -/
theorem endsSwallowed_ending {x : Extension} {qs : List Piece} {tail : List Lexeme}
    (hn : EndsDeclaration (opening qs tail)) : EndsSwallowed (opening (x.ending ++ qs) tail) := by
  cases x with
  | function => exact ⟨⟨nofun, nofun, nofun⟩, nofun⟩
  | property =>
    exact ⟨⟨hn.markIn.ne (by decide), hn.markIn.ne (by decide), hn.markIn.ne (by decide)⟩,
      hn.markIn.ne (by decide)⟩

section Parsing

variable {n : Nat} {P : Productions} {rs : List Piece} {receiver : TypeReference} {name : Bytes}

/-- The tokens of an extension, without modifiers in front of them. -/
theorem before_pieces {x : Extension} {w : Keyword} (hw : x.keyword = w) {s : State}
    {qs : List Piece} {tail : List Lexeme} (hb : s.Before (x.pieces rs name ++ qs) tail) :
    s.Before (modifierPieces [] ++
      (.word w :: ((rs ++ [.name name]) ++ (x.ending ++ qs)))) tail :=
  hb.congr (by simp [pieces, modifierPieces, hw])

/-- An extension is found where its receiver is. -/
theorem declares (hP : Reparses n P) (hn : 2 ≤ n) (hR : Receives P rs (some receiver) name)
    (x : Extension) :
    Declares (grammar P) (x.pieces rs name) (x.declaration receiver name) := by
  refine ⟨fun mode s qs tail hb hend => ?_, Nat.succ_pos _, fun qs tail => by cases x <;> rfl⟩
  change Ensures (Parser.declaration P) mode s _
  unfold Parser.declaration
  rw [ensures_bind, ensures_current]
  cases x with
  | function =>
    have hsize : size (parametersPieces [] ++ (typesPieces .colon (none : Option _).toList ++
        typesPieces .divide [])) ≤ n := hn
    refine modifiers_then (before_pieces (w := .fun_) rfl hb) (.inl rfl) fun ts s₁ hms hc hb₁ => ?_
    exact (functionDeclaration_completes hP hms hR rfl rfl rfl hsize).found hc hb₁
      (by simp [ending, typesPieces]) hend
  | property =>
    have hsize : size (typesPieces .colon (none : Option _).toList ++ typesPieces .divide []) ≤ n :=
      Nat.zero_le n
    refine modifiers_then (before_pieces (w := .val) rfl hb) (.inl rfl) fun ts s₁ hms hc hb₁ => ?_
    rw [ensures_bind, ensures_nextKind, hb₁.next_kind rfl, ensures_ite,
      if_neg (by simpa using (hR.opens _ _).2)]
    exact (propertyDeclaration_completes hP hms hR rfl rfl hsize).found hc hb₁
      (by simp [ending, typesPieces]) hend

/-- An extension is complained about where its receiver is. -/
theorem stumbles (hP : P.Lockstep) {x : Extension} {tail : List Lexeme}
    (hopens : opening (rs ++ [.name name] ++ x.ending) tail = .keyword .exist)
    (hR : Stumbles (receiverAndName P) (rs ++ [.name name] ++ x.ending) tail) :
    Stumbles (Parser.declaration P) (x.pieces rs name) tail := by
  intro mode s hs hb
  rw [← List.append_nil (x.pieces rs name)] at hb
  rw [← List.append_nil x.ending] at hopens hR
  have hangle : opening (rs ++ [.name name] ++ (x.ending ++ [])) tail ≠ .mark .leftAngle := by
    rw [hopens]
    nofun
  unfold Complains Parser.declaration
  rw [ensures_bind, ensures_current]
  cases x with
  | function =>
    refine modifiers_then (before_pieces (w := .fun_) rfl hb) (.inl rfl) fun ts s₁ _ hc hb₁ => ?_
    exact (functionDeclaration_stumbles hP ts hangle hR (hc.calm hs) hb₁).bind fun _ => .pure _
  | property =>
    refine modifiers_then (before_pieces (w := .val) rfl hb) (.inl rfl) fun ts s₁ _ hc hb₁ => ?_
    rw [ensures_bind, ensures_nextKind, hb₁.next_kind rfl, ensures_ite,
      if_neg (by rw [hopens]; decide)]
    exact (propertyDeclaration_stumbles hP ts hangle hR (hc.calm hs) hb₁).bind fun _ => .pure _

end Parsing

end Extension

/-- The source is parsed without a complaint, and what is found is one declaration. -/
structure ParsesAs (source : Bytes) (d : Declaration) : Prop where
  quiet : (parse source).complaints = []
  single : (parse source).file.declarations.length = 1
  skeleton : ∃ index, ofFile (parse source).file = .ok (⟨[], [d]⟩, index)

theorem ParsesAs.unique {source : Bytes} {d e : Declaration} (hd : ParsesAs source d)
    (he : ParsesAs source e) : d = e := by
  obtain ⟨i, hi⟩ := hd.skeleton
  obtain ⟨j, hj⟩ := he.skeleton
  rw [hi] at hj
  cases hj
  rfl

theorem parsesAs_textOf {ps : List Piece} {d : Declaration} (hps : Linked ps none)
    (hd : Declares (grammarUpTo (size ps + 2)) ps d) : ParsesAs (textOf ps) d := by
  obtain ⟨s, tail, hb, hend, hnone, -, hparse⟩ := parse_textOf hps
  have hlines : s.Before (headerPieces [] ++ [d].flatMap fun _ => ps ++ [.lineEnd]) tail :=
    hb.congr (by simp [headerPieces]; rfl)
  have hds : ∀ e ∈ [d], Declares (grammarUpTo (size ps + 2)) ps e := fun e he =>
    List.mem_singleton.mp he ▸ hd
  suffices hparsed : (parse (textOf ps)).complaints = [] ∧
      (parse (textOf ps)).file.declarations.length = 1 ∧
      ∃ index, ofFile (parse (textOf ps)).file = .ok (⟨[], [d]⟩, index) from
    ⟨hparsed.1, hparsed.2.1, hparsed.2.2⟩
  refine hparse (fun f complaints => complaints = [] ∧ f.declarations.length = 1 ∧
    ∃ index, ofFile f = .ok (⟨[], [d]⟩, index)) ((file_reads hds hlines hend).mono ?_)
  rintro f s' ⟨hbuilt, hlength, hclean⟩
  exact ⟨by rw [hclean.complaints_eq, hnone]; rfl, hlength, hbuilt⟩

section Whole

variable {existential nullable : Bool} {segments : List Bytes} {arguments : List TypeReference}
  {name : Bytes}

/-- A receiver that ends before the name is found, but for the mark of an existential one. -/
theorem receiver_found
    (hw : (TypeReference.regular existential segments arguments nullable).isWritable = true)
    (hname : isName name = true)
    (hclosed : existential = true → arguments = [] → nullable = true) (x : Extension) :
    ParsesAs (x.source (.regular existential segments arguments nullable) name) (x.declaration
      (.regular existential segments arguments (nullable && !existential)) name) := by
  have hlinked := Extension.linked_pieces hw hname x
  obtain ⟨hne, -, harguments⟩ := isWritable_regular.mp hw
  have hlt := size_arguments_lt existential false hne arguments
  rw [← Extension.textOf_pieces]
  refine parsesAs_textOf hlinked ?_
  have hsize : size (commaPieces (arguments.map TypeReference.pieces)) <
      size (x.pieces (dottedReceiver existential segments arguments nullable) name) := by
    simp only [Extension.pieces, dottedReceiver, size_append, size_word, size_blank]
    omega
  generalize size (x.pieces (dottedReceiver existential segments arguments nullable) name) = n
    at hsize
  refine Extension.declares (grammarUpTo_reparses (n + 1)) (by omega) ?_ x
  cases existential with
  | false =>
    rw [Bool.not_false, Bool.and_true]
    exact named_receives (grammarUpTo_reparses (n + 1)).type hne harguments (by omega) nullable name
  | true =>
    rw [Bool.not_true, Bool.and_false]
    exact exist_receives (grammarUpTo_reparses n).type hne harguments (Nat.le_of_lt hsize)
      (hclosed rfl) name

/-- An existential receiver that nothing ends takes the name for another part of itself. -/
theorem receiver_swallowed
    (hw : (TypeReference.regular true segments [] false).isWritable = true)
    (hname : isName name = true) (x : Extension) :
    (parse (x.source (.regular true segments [] false) name)).complaints ≠ [] := by
  have hlinked := Extension.linked_pieces hw hname x
  have hne : segments ≠ [] := (isWritable_regular.mp hw).1
  obtain ⟨s, tail, hb, hend, -, hcalm, hparse⟩ := parse_textOf hlinked
  rw [← Extension.textOf_pieces]
  refine hparse (fun _ complaints => complaints ≠ []) ?_
  generalize size (x.pieces (dottedReceiver true segments [] false) name) = n
  have hR : Stumbles (receiverAndName (grammarUpTo (n + 1)))
      (dottedReceiver true segments [] false ++ [.name name] ++ x.ending) tail := by
    refine exist_stumbles (grammarUpTo_reparses n).type hne ?_
    rw [← List.append_nil x.ending]
    exact Extension.endsSwallowed_ending (.inl hend)
  have hfile : Stumbles (file (grammarUpTo (n + 2)))
      (x.pieces (dottedReceiver true segments [] false) name) tail :=
    file_stumbles (grammarUpTo_lockstep _) (by cases x <;> rfl)
      (Extension.stumbles (grammarUpTo_lockstep (n + 1)) rfl hR)
  exact (hfile hcalm hb).mono fun _ _ h => by simpa using h

/-- **Receivers as they are written.** A function or a property with a receiver is parsed as it is
written exactly when the receiver has no `exist` in front of it, or has arguments and is not
nullable.

Otherwise a nullable receiver loses its mark. One with neither a mark nor arguments at its end takes
the name for another part of itself, and then the parser complains. -/
theorem receiver_written
    (hw : (TypeReference.regular existential segments arguments nullable).isWritable = true)
    (hname : isName name = true) (x : Extension) :
    let r := TypeReference.regular existential segments arguments nullable
    let bare := existential = true ∧ arguments = [] ∧ nullable = false
    (ParsesAs (x.source r name) (x.declaration r name) ↔
      (existential = true → arguments ≠ [] ∧ nullable = false)) ∧
    (¬ bare → ParsesAs (x.source r name)
      (x.declaration (.regular existential segments arguments (nullable && !existential)) name)) ∧
    (bare → (parse (x.source r name)).complaints ≠ []) := by
  intro r bare
  have hfound (hbare : ¬ bare) := receiver_found hw hname (fun hexist hnone => by
    by_contra hmark
    exact hbare ⟨hexist, hnone, by simpa using hmark⟩) x
  have hswallowed (hbare : bare) : (parse (x.source r name)).complaints ≠ [] := by
    obtain ⟨rfl, rfl, rfl⟩ := hbare
    exact receiver_swallowed hw hname x
  refine ⟨⟨fun h hexist => ?_, fun h => ?_⟩, hfound, hswallowed⟩
  · have hbare : ¬ bare := fun hbare => hswallowed hbare h.quiet
    have hsame := h.unique (hfound hbare)
    subst hexist
    have hnullable : nullable = false := by
      cases x <;> simpa [Extension.declaration, r] using hsame
    exact ⟨fun hnone => hbare ⟨rfl, hnone, hnullable⟩, hnullable⟩
  · have hbare : ¬ bare := fun hbare => (h hbare.1).1 hbare.2.1
    have hkept : (nullable && !existential) = nullable := by
      cases existential with
      | false => exact Bool.and_true _
      | true => rw [(h rfl).2, Bool.false_and]
    have hwritten := hfound hbare
    rwa [hkept] at hwritten

/-- A function is found in a type with arguments, but not in one that the name seems to go on. -/
theorem receiver_written_exist :
    let item := TypeReference.regular false [utf8 "T"] [] true
    let box := TypeReference.regular true [utf8 "demo", utf8 "Box"] [item] false
    let plain := TypeReference.regular true [utf8 "Foo"] [] false
    Extension.function.source box (utf8 "size") = utf8 "fun exist demo.Box<T?>.size()" ∧
    ParsesAs (Extension.function.source box (utf8 "size"))
      (Extension.function.declaration box (utf8 "size")) ∧
    Extension.function.source plain (utf8 "bar") = utf8 "fun exist Foo.bar()" ∧
    (parse (Extension.function.source plain (utf8 "bar"))).complaints ≠ [] := by
  intro item box plain
  have hbox : ParsesAs (Extension.function.source box (utf8 "size"))
      (Extension.function.declaration box (utf8 "size")) :=
    (receiver_written (by decide) (by decide) .function).1.mpr fun _ => ⟨List.cons_ne_nil _ _, rfl⟩
  exact ⟨by decide +kernel, hbox, by decide +kernel,
    (receiver_written (by decide) (by decide) .function).2.2 ⟨rfl, rfl, rfl⟩⟩

end Whole

end Yurin.Skeleton
