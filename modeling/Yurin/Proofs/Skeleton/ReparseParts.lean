import Yurin.Proofs.Skeleton.ReparseTypes

/-!
# Parsing the parts of declarations

`Reparses n P`: the productions `P` find every type and every declaration that has at most `n`
tokens, and the tree of a declaration builds it (`Builds`). With such productions, the parsers of
modifiers, parameters, type lists, receivers and bodies find these parts of a declaration.
-/

namespace Yurin.Skeleton

open Yurin.Parser

/-! ## What trees build -/

/-- A tree builds a declaration, wherever it stands. -/
def Builds (tree : Yurin.Declaration) (d : Declaration) : Prop :=
  ∀ path, ∃ keyword inner, declarationOf path tree = .ok (some ⟨keyword, d, inner⟩)

theorem declarationsOf_builds {ds : List Declaration} {trees : List Yurin.Declaration}
    (h : List.Forall₂ (fun d tree => Builds tree d) ds trees) (path : Path) (i : Nat) :
    ∃ index, declarationsOf path i trees = .ok (ds, index) := by
  induction h generalizing i with
  | nil => exact ⟨_, rfl⟩
  | cons hd _ ih =>
    obtain ⟨keyword, inner, hone⟩ := hd (path ++ [i])
    obtain ⟨index, hrest⟩ := ih (i + 1)
    rw [declarationsOf, hone]
    simp only [bind, Except.bind, hrest]
    exact ⟨_, rfl⟩

theorem bodyOf_builds {body : Option (List Yurin.Declaration)} {ds : List Declaration}
    (h : List.Forall₂ (fun d tree => Builds tree d) ds (body.getD [])) (path : Path) :
    ∃ index, bodyOf path body = .ok (ds, index) := by
  cases body with
  | none =>
    cases h
    exact ⟨_, rfl⟩
  | some members =>
    obtain ⟨index, hindex⟩ := declarationsOf_builds h path 0
    exact ⟨index, by rw [bodyOf]; exact hindex⟩

/-- The tokens of modifiers, item by item. -/
theorem mapM_modifierOf {modifiers : List Modifier} {ts : List Token}
    (h : List.Forall₂ (fun m (t : Token) => t.kind = .keyword m.keyword) modifiers ts) :
    ts.mapM modifierOf = .ok modifiers := by
  induction h with
  | nil => rfl
  | @cons m t _ _ hm _ ih =>
    have hone : modifierOf t = .ok m := by
      rw [modifierOf, hm]
      cases m <;> rfl
    rw [List.mapM_cons, hone, ih]
    rfl

/-! ## Parts of declarations -/

/-- The kinds of tokens that come after a declaration. -/
def EndsDeclaration (k : Kind) : Prop :=
  k = .eof ∨ k = .mark .rightBrace ∨ k.startsDeclaration = true

/-- **The productions find what has at most `n` tokens.** -/
structure Reparses (n : Nat) (P : Productions) : Prop where
  type : ReparsesTypes n P.type
  receiver : ∀ ⦃t : TypeReference⦄, t.isWritable = true → size t.pieces < n →
    Yields P.type (.mark .leftParen :: t.pieces ++ [.mark .rightParen]) (fun _ => True) (RefersTo t)
  declaration : ∀ ⦃d : Declaration⦄, d.isWritable = true → size d.pieces ≤ n →
    Yields P.declaration d.pieces EndsDeclaration fun found =>
      ∃ tree, found = some tree ∧ Builds tree d

section Parts

variable {n : Nat} {P : Productions}

theorem typeAfter_yields (hP : Reparses n P) (m : Mark) {t : TypeReference}
    (ht : t.isWritable = true) (hsize : size t.pieces ≤ n) :
    Yields (typeAfter P m) (typesPieces m [t]) EndsType (RefersTo t) := by
  intro mode s qs tail hb hn
  have hb : s.Before (.mark m :: (t.pieces ++ qs)) tail := hb.congr rfl
  unfold typeAfter
  refine (expect_yields (p := .mark m) rfl nofun).then (.refl s) hb trivial ?_
  rintro _ s₁ ⟨u, rfl, -⟩ hc hb₁
  refine (hP.type ht hsize hb₁ hn).mono ?_
  rintro found s₂ ⟨hfound, hc₂, hb₂⟩
  exact ⟨hfound, hc.trans hc₂, hb₂⟩

theorem typeAfter?_yields (hP : Reparses n P) (m : Mark) {t : Option TypeReference}
    (ht : areWritable t.toList = true) (hsize : size (typesPieces m t.toList) ≤ n) :
    Yields (typeAfter? P m) (typesPieces m t.toList) (fun k => EndsType k ∧ k ≠ .mark m)
      fun found => found.map typeReference = t := by
  intro mode s qs tail hb ⟨hn, hne⟩
  unfold typeAfter?
  cases t with
  | none =>
    refine (accept_absent (.mark m)).then (.refl s) hb hne ?_
    rintro _ s₁ rfl hc hb₁
    exact ⟨rfl, hc, hb₁⟩
  | some t =>
    have hb : s.Before (.mark m :: (t.pieces ++ qs)) tail := hb.congr rfl
    refine (accept_yields (p := .mark m) rfl nofun).then (.refl s) hb trivial ?_
    rintro _ s₁ rfl hc hb₁
    have hle : size t.pieces ≤ n := Nat.le_of_succ_le hsize
    refine (hP.type (by simpa [areWritable] using ht) hle hb₁ hn).mono ?_
    rintro _ s₂ ⟨⟨e, rfl, he⟩, hc₂, hb₂⟩
    exact ⟨congrArg some he, hc.trans hc₂, hb₂⟩

theorem typesAfter?_yields (hP : Reparses n P) (m : Mark) {types : List TypeReference}
    (hw : areWritable types = true) (hsize : size (typesPieces m types) ≤ n) :
    Yields (typesAfter? P m) (typesPieces m types)
      (fun k => (EndsType k ∧ k ≠ .mark .comma) ∧ k ≠ .mark m)
      fun es => typeReferences es = types := by
  intro mode s qs tail hb ⟨hn, hne⟩
  unfold typesAfter?
  by_cases hnil : types = []
  · subst hnil
    refine (accept_absent (.mark m)).then (.refl s) hb hne ?_
    rintro _ s₁ rfl hc hb₁
    exact ⟨rfl, hc, hb₁⟩
  · rw [typesPieces, if_neg (by simpa using hnil)] at hb hsize
    have hb : s.Before (.mark m :: (commaPieces (types.map TypeReference.pieces) ++ qs)) tail :=
      hb.congr rfl
    simp only [size_blank, size_mark] at hsize
    refine (accept_yields (p := .mark m) rfl nofun).then (.refl s) hb trivial ?_
    rintro _ s₁ rfl hc hb₁
    have hwrite := (areWritable_iff types).mp hw
    have hfind : ∀ t ∈ types,
        FindsListed (typeStep P.type) t.pieces EndsType fun e => typeReference e = t := by
      intro t ht
      have hle := size_commas_le (List.mem_map_of_mem (f := TypeReference.pieces) ht)
      exact typeStep_listed hP.type (hwrite t ht) (by omega)
    refine (types_yields hnil hwrite hfind hb₁ hn).mono ?_
    rintro es s₂ ⟨hes, hc₂, hb₂⟩
    exact ⟨hes, hc.trans hc₂, hb₂⟩

theorem typeParameterStep_listed (name : Bytes) :
    FindsListed typeParameterStep [.name name] (fun _ => True) fun i => i.name = name := by
  intro mode s qs tail hb _ hq
  unfold typeParameterStep
  rw [ensures_bind, ensures_isAtAny, ensures_ite, hb.kind_eq, if_neg (by rintro ⟨⟩)]
  refine (expectIdentifier_yields name).then (.refl s) hb trivial ?_
  rintro _ s₁ ⟨i, rfl, hi⟩ hc hb₁
  exact accept_comma (fun i : Identifier => i.name = name) hi hc hb₁ hq

theorem typeParameters?_yields (names : List Bytes) :
    Yields typeParameters? (genericsPieces names) (· ≠ .mark .leftAngle)
      fun found => (found.getD []).map Identifier.name = names := by
  intro mode s qs tail hb hn
  unfold typeParameters?
  by_cases hnil : names = []
  · subst hnil
    have hb : s.Before qs tail := hb
    rw [ensures_bind, ensures_isAt, ensures_ite, hb.kind_eq, if_neg (by simpa using hn)]
    exact ⟨rfl, .refl s, hb⟩
  · rw [genericsPieces, if_neg (by simpa using hnil)] at hb
    simp only [List.cons_append, List.append_assoc] at hb
    rw [ensures_bind, ensures_isAt, ensures_ite, hb.kind_eq, if_pos (by rfl), ensures_bind]
    unfold typeParameters
    refine advance_mark_then (.refl s) hb fun _ s₁ _ hc hb₁ => ?_
    have hloop : Yields (collect typeParameterStep)
        (commaPieces (names.map fun n => [.name n])) (· = .mark .rightAngle)
        (List.Forall₂ (fun n (i : Identifier) => i.name = n) names) :=
      collect_commas hnil (fun n _ => typeParameterStep_listed n) (fun _ _ => by simp) trivial
        fun k hk => ⟨trivial, by rw [hk]; decide⟩
    refine hloop.then hc hb₁ rfl fun ids s₂ hids hc hb₂ => ?_
    refine (expectUnit_yields .rightAngle).then hc hb₂ trivial fun _ s₃ _ hc hb₃ => ?_
    have hnames : ids.map Identifier.name = names := by
      rw [← List.forall₂_eq_eq_eq, List.forall₂_map_left_iff]
      exact hids.flip
    exact ⟨hnames, hc, hb₃⟩

/-! ## Value parameters -/

/-- A parsed value parameter that has the name and type of one of the skeleton. -/
def TypedAs (p : Parameter) (found : Yurin.Parameter) : Prop :=
  ∃ i e value, found = .mk i (some e) value ∧ i.name = p.name ∧ typeReference e = p.type

theorem typedParameters_eq {ps : List Parameter} {found : List Yurin.Parameter}
    (h : List.Forall₂ TypedAs ps found) : (typedParameters found).map (·.2) = ps := by
  induction h with
  | nil => rfl
  | cons hp _ ih =>
    obtain ⟨i, e, value, rfl, hname, htype⟩ := hp
    rw [typedParameters, List.map_cons, ih, hname, htype]

theorem valueAfterEq?_absent (P : Productions) :
    Yields (valueAfterEq? P) [] (· ≠ .mark .eq) (· = none) := by
  intro mode s qs tail hb hn
  unfold valueAfterEq?
  refine (accept_absent (.mark .eq)).then (.refl s) hb hn ?_
  rintro _ s₁ rfl hc hb₁
  exact ⟨rfl, hc, hb₁⟩

theorem parameterStep_listed (hP : Reparses n P) {p : Parameter} (hp : p.isWritable = true)
    (hsize : size p.pieces ≤ n) :
    FindsListed (parameterStep P) p.pieces (fun k => EndsType k ∧ k ≠ .mark .eq) (TypedAs p) := by
  intro mode s qs tail hb ⟨hn, heq⟩ hq
  simp only [Parameter.isWritable, Bool.and_eq_true] at hp
  have hb : s.Before (.name p.name :: (typesPieces .colon [p.type] ++ qs)) tail := hb
  have hle : size p.type.pieces ≤ n := by
    simp only [Parameter.pieces, size_name, size_blank, size_mark] at hsize
    omega
  unfold parameterStep
  rw [ensures_bind, ensures_isAtAny, ensures_ite, hb.kind_eq, if_neg (by rintro ⟨⟩), ensures_bind,
    ensures_isAt, ensures_ite, hb.kind_eq, if_pos (by rfl), ensures_bind]
  unfold valueParameter
  refine advance_piece_then (.refl s) hb rfl (by simp [Piece.name]) fun t s₁ _ ht hc hb₁ => ?_
  refine (typeAfter_yields hP .colon hp.2 hle).then hc hb₁ hn ?_
  rintro _ s₂ ⟨e, rfl, he⟩ hc hb₂
  refine (valueAfterEq?_absent P).then hc hb₂ heq fun value s₃ _ hc hb₃ => ?_
  exact accept_comma (TypedAs p) ⟨⟨t⟩, e, value, rfl, ht, he⟩ hc hb₃ hq

theorem valueParameters_yields (hP : Reparses n P) {ps : List Parameter}
    (hw : ps.all Parameter.isWritable = true) (hsize : size (parametersPieces ps) ≤ n) :
    Yields (valueParameters P) (parametersPieces ps) (fun _ => True) (List.Forall₂ TypedAs ps) := by
  intro mode s qs tail hb _
  simp only [parametersPieces, List.cons_append, List.append_assoc] at hb
  have hloop : Yields (collect (parameterStep P)) (commaPieces (ps.map Parameter.pieces))
      (· = .mark .rightParen) (List.Forall₂ TypedAs ps) := by
    by_cases hnil : ps = []
    · subst hnil
      intro mode s qs tail hb hn
      have hb : s.Before qs tail := hb
      have hstop : Ensures (parameterStep P) mode s fun found s' => found = .stop ∧ s' = s := by
        unfold parameterStep
        rw [ensures_bind, ensures_isAtAny, ensures_ite, hb.kind_eq, hn, if_pos (by rfl)]
        exact ⟨rfl, rfl⟩
      refine (collect_none hstop).mono ?_
      rintro _ _ ⟨rfl, rfl⟩
      exact ⟨.nil, .refl _, hb⟩
    · have hfind : ∀ p ∈ ps, FindsListed (parameterStep P) p.pieces
          (fun k => EndsType k ∧ k ≠ .mark .eq) (TypedAs p) := fun p hp => by
        have hle := size_commas_le (List.mem_map_of_mem (f := Parameter.pieces) hp)
        simp only [parametersPieces, size_mark, size_append, List.cons_append] at hsize
        exact parameterStep_listed hP (List.all_eq_true.mp hw p hp) (by omega)
      refine collect_commas hnil hfind (fun _ _ => Nat.succ_pos _)
        ⟨endsType_mark (by decide), by decide⟩ fun k hk => ?_
      rw [hk]
      exact ⟨⟨endsType_mark (by decide), by decide⟩, by decide⟩
  unfold valueParameters
  refine advance_mark_then (.refl s) hb fun _ s₁ _ hc hb₁ => ?_
  rw [ensures_bind, ensures_inBrackets]
  refine (hloop hb₁ rfl).mono ?_
  rintro found s₂ ⟨hfound, hc₂, hb₂⟩
  exact (expectUnit_yields .rightParen).then (hc.trans hc₂) hb₂ trivial
    fun _ s₃ _ hc hb₃ => ⟨hfound, hc, hb₃⟩

theorem valueParameters?_yields (hP : Reparses n P) {ps : List Parameter}
    (hw : ps.all Parameter.isWritable = true)
    (hsize : size (if ps.isEmpty then [] else parametersPieces ps) ≤ n) :
    Yields (valueParameters? P) (if ps.isEmpty then [] else parametersPieces ps)
      (· ≠ .mark .leftParen) fun found => List.Forall₂ TypedAs ps (found.getD []) := by
  intro mode s qs tail hb hn
  unfold valueParameters?
  by_cases hnil : ps = []
  · subst hnil
    have hb : s.Before qs tail := hb
    rw [ensures_bind, ensures_isAt, ensures_ite, hb.kind_eq, if_neg (by simpa using hn)]
    exact ⟨.nil, .refl s, hb⟩
  · rw [if_neg (by simpa using hnil)] at hb hsize
    rw [ensures_bind, ensures_isAt, ensures_ite, hb.kind_eq, if_pos (by rfl)]
    exact (valueParameters_yields hP hw hsize).then (.refl s) hb trivial
      fun _ s₁ hfound hc hb₁ => ⟨hfound, hc, hb₁⟩

theorem requiredParameters_yields (hP : Reparses n P) {ps : List Parameter}
    (hw : ps.all Parameter.isWritable = true) (hsize : size (parametersPieces ps) ≤ n) :
    Yields (requiredParameters P) (parametersPieces ps) (fun _ => True)
      fun found => List.Forall₂ TypedAs ps (found.getD []) := by
  intro mode s qs tail hb _
  unfold requiredParameters
  rw [ensures_bind, ensures_isAt, ensures_ite, hb.kind_eq, if_pos (by rfl)]
  exact (valueParameters_yields hP hw hsize).then (.refl s) hb trivial
    fun _ s₁ hfound hc hb₁ => ⟨hfound, hc, hb₁⟩

/-! ## Modifiers and bodies -/

/-- A declaration begins with a token that declarations begin with. -/
theorem opening_declaration (d : Declaration) (qs : List Piece) (tail : List Lexeme) :
    (opening (d.pieces ++ qs) tail).startsDeclaration = true := by
  have hmods (modifiers : List Modifier) (ps : List Piece)
      (h : (opening ps tail).startsDeclaration = true) :
      (opening (modifierPieces modifiers ++ ps) tail).startsDeclaration = true := by
    cases modifiers with
    | nil => exact h
    | cons m rest => cases m <;> rfl
  cases d with
  | data modifiers flavor =>
    simp only [Declaration.pieces, List.append_assoc]
    exact hmods _ _ (by cases flavor <;> rfl)
  | property modifiers writable =>
    simp only [Declaration.pieces, List.append_assoc]
    exact hmods _ _ (by cases writable <;> rfl)
  | _ =>
    simp only [Declaration.pieces, List.append_assoc]
    exact hmods _ _ rfl

theorem size_declaration_pos (d : Declaration) : 0 < size d.pieces := by
  cases d <;>
    simp only [Declaration.pieces, size_append, size_word, size_blank, size_name, size_nil] <;>
    omega

theorem modifierStep_finds (m : Modifier) :
    FindsItem modifierStep [.word m.keyword, .blank] (·.startsDeclaration = true)
      fun t => t.kind = .keyword m.keyword := by
  intro mode s qs tail hb hn
  have hb : s.Before (.word m.keyword :: qs) tail := hb.congr rfl
  have hmodifier : (!(Kind.keyword m.keyword).isModifier) = false := by cases m <;> rfl
  unfold modifierStep
  rw [ensures_bind, ensures_kind, ensures_ite, hb.kind_eq, opening_word, hmodifier,
    if_neg Bool.false_ne_true, ensures_bind, ensures_nextKind, hb.next_kind rfl, ensures_ite,
    if_neg (by simp [hn])]
  exact advance_word_then (.refl s) hb fun t s₁ ht hc hb₁ => ⟨⟨t, rfl, rfl, ht⟩, hc, hb₁⟩

/-- Modifiers end before the keyword of a declaration. The word `impl` is one where a type
follows. -/
theorem modifiers_yields (ms : List Modifier) {mode : LineMode} {s : State} {w : Keyword}
    {qs : List Piece} {tail : List Lexeme}
    (hb : s.Before (modifierPieces ms ++ .word w :: qs) tail)
    (hw : (Kind.keyword w).isDeclarationWord = true ∨
      w = .impl ∧ (opening qs tail).startsDeclaration = false) :
    Ensures modifiers mode s fun ts s' =>
      List.Forall₂ (fun m (t : Token) => t.kind = .keyword m.keyword) ms ts ∧ Clean s s' ∧
        s'.Before (.word w :: qs) tail := by
  refine collect_items hb (fun m _ => modifierStep_finds m) (fun _ _ => by simp)
    (fun m _ _ _ => by cases m <;> rfl) ?_ fun s hb => ?_
  · rw [opening_word]
    rcases hw with hw | ⟨rfl, -⟩
    · simp [Kind.startsDeclaration, hw]
    · rfl
  · unfold modifierStep
    rw [ensures_bind, ensures_kind, ensures_ite, hb.kind_eq, opening_word]
    rcases hw with hw | ⟨rfl, hw⟩
    · have hnot : (!(Kind.keyword w).isModifier) = true := by
        cases w <;> first | rfl | cases hw
      rw [if_pos hnot]
      exact ⟨rfl, rfl⟩
    · rw [if_neg (by decide), ensures_bind, ensures_nextKind, hb.next_kind rfl, ensures_ite,
        if_pos (by simp [hw])]
      exact ⟨rfl, rfl⟩

theorem linesPieces_eq (ds : List Declaration) :
    linesPieces ds = ds.flatMap fun d => d.pieces ++ [.lineEnd] := by
  induction ds with
  | nil => rfl
  | cons d rest ih => rw [linesPieces, ih, List.flatMap_cons, List.append_assoc]; rfl

/-- A line has no more tokens than all lines. -/
theorem size_line_le {ds : List Declaration} {d : Declaration} (h : d ∈ ds) :
    size d.pieces ≤ size (linesPieces ds) := by
  induction ds with
  | nil => cases h
  | cons e rest ih =>
    rw [linesPieces, size_append, size_lineEnd]
    rcases List.mem_cons.mp h with rfl | h
    · omega
    · have := ih h
      omega

/-- The pieces are those of a declaration: it is found in them. -/
structure Declares (P : Productions) (ps : List Piece) (d : Declaration) : Prop where
  yields : Yields P.declaration ps EndsDeclaration fun found =>
    ∃ tree, found = some tree ∧ Builds tree d
  pos : 0 < size ps
  opens : ∀ qs tail, (opening (ps ++ qs) tail).startsDeclaration = true

theorem Declaration.declares (hP : Reparses n P) {d : Declaration} (hd : d.isWritable = true)
    (hsize : size d.pieces ≤ n) : Declares P d.pieces d :=
  ⟨hP.declaration hd hsize, size_declaration_pos d, opening_declaration d⟩

/-- A declaration on its line, as an item of a sequence. -/
theorem progress_declaration {ps : List Piece} {d : Declaration} (hd : Declares P ps d)
    (due : Expectation) (ends : Lexeme → Bool) :
    FindsItem (progress P.declaration due ends) (ps ++ [.lineEnd]) EndsDeclaration
      fun tree => Builds tree d := by
  intro mode s qs tail hb hn
  rw [List.append_assoc] at hb
  refine (progress_yields hd.yields hd.pos due ends hb hn).mono ?_
  rintro found s₁ ⟨⟨hmore, tree, htree, hbuilds⟩, hc, hb₁⟩
  exact ⟨⟨tree, htree, hmore, hbuilds⟩, hc, hb₁.congr rfl⟩

theorem bracedStep_finds (hP : Reparses n P) {d : Declaration} (hd : d.isWritable = true)
    (hsize : size d.pieces ≤ n) :
    FindsItem (bracedStep P.declaration .member endsMember) (d.pieces ++ [.lineEnd])
      EndsDeclaration fun tree => Builds tree d := by
  intro mode s qs tail hb hn
  have hopen := opening_declaration d (.lineEnd :: qs) tail
  have hkind : s.current.token.kind = opening (d.pieces ++ .lineEnd :: qs) tail := by
    rw [hb.kind_eq, List.append_assoc]
    rfl
  have hne {k : Kind} (hk : k.startsDeclaration = false) : s.current.token.kind ≠ k := by
    rintro rfl
    rw [hkind, hopen] at hk
    cases hk
  unfold bracedStep
  rw [ensures_bind, ensures_isAtAny, ensures_ite, if_neg]
  · have hsemi : opening ((d.pieces ++ [.lineEnd]) ++ qs) tail ≠ .mark .semicolon := by
      rw [← hb.kind_eq]
      exact hne rfl
    refine (accept_absent (.mark .semicolon)).then (.refl s) hb hsemi ?_
    rintro _ s₁ rfl hc hb₁
    rw [ensures_ite, if_neg Bool.false_ne_true]
    refine (progress_declaration (d.declares hP hd hsize) .member endsMember hb₁ hn).mono ?_
    rintro found s₂ ⟨hfound, hc₂, hb₂⟩
    exact ⟨hfound, hc.trans hc₂, hb₂⟩
  · simp [hne (k := .mark .rightBrace) rfl, hne (k := .eof) rfl]

theorem typeBody?_yields (hP : Reparses n P) {ds : List Declaration}
    (hw : membersWritable ds = true) (hsize : size (bodyPieces (linesPieces ds)) ≤ n) :
    Yields (typeBody? P) (bodyPieces (linesPieces ds)) (· ≠ .mark .leftBrace)
      fun body => List.Forall₂ (fun d tree => Builds tree d) ds (body.getD []) := by
  intro mode s qs tail hb hn
  unfold typeBody?
  by_cases hnil : ds = []
  · subst hnil
    have hb : s.Before qs tail := hb
    rw [ensures_bind, ensures_isAt, ensures_ite, hb.kind_eq, if_neg (by simpa using hn)]
    exact ⟨.nil, .refl s, hb⟩
  · have hlines : linesPieces ds ≠ [] := by
      obtain ⟨d, rest, rfl⟩ := List.exists_cons_of_ne_nil hnil
      simp [linesPieces]
    rw [bodyPieces, if_neg (by simpa using hlines)] at hb hsize
    simp only [List.cons_append, List.append_assoc, size_blank, size_mark, size_lineEnd,
      size_append] at hb hsize
    have hb : s.Before (.mark .leftBrace :: (linesPieces ds ++ (.mark .rightBrace :: qs))) tail :=
      hb.congr rfl
    rw [ensures_bind, ensures_isAt, ensures_ite, hb.kind_eq, if_pos (by rfl), ensures_bind]
    unfold typeBody
    refine advance_mark_then (.refl s) hb fun _ s₁ _ hc hb₁ => ?_
    unfold braced
    rw [ensures_bind, ensures_inBraces]
    rw [linesPieces_eq] at hb₁
    have hfind : ∀ d ∈ ds, FindsItem (bracedStep P.declaration .member endsMember)
        (d.pieces ++ [.lineEnd]) EndsDeclaration fun tree => Builds tree d := fun d hd => by
      have hle := size_line_le hd
      exact bracedStep_finds hP ((membersWritable_iff ds).mp hw d hd) (by omega)
    refine (collect_items hb₁ hfind (fun d _ => ?_) (fun d _ qs tail => ?_) (.inr (.inl rfl))
      fun s hb => ?_).mono ?_
    · rw [size_append]
      exact Nat.lt_add_right _ (size_declaration_pos d)
    · rw [List.append_assoc]
      exact .inr (.inr (opening_declaration d _ tail))
    · unfold bracedStep
      rw [ensures_bind, ensures_isAtAny, ensures_ite, hb.kind_eq, if_pos (by rfl)]
      exact ⟨rfl, rfl⟩
    · rintro trees s₂ ⟨htrees, hc₂, hb₂⟩
      exact (expectUnit_yields .rightBrace).then (hc.trans hc₂) hb₂ trivial
        fun _ s₃ _ hc hb₃ => ⟨htrees, hc, hb₃⟩

/-! ## What comes next

Each part of a declaration that may be left out begins with a mark of its own, so the token after a
part is one of a few marks, or what comes after the declaration. -/

/-- If the kind is a mark, it is one of these. -/
def MarkIn (marks : List Mark) (k : Kind) : Prop := ∀ m, k = .mark m → m ∈ marks

theorem MarkIn.ne {marks : List Mark} {k : Kind} (h : MarkIn marks k) {m : Mark} (hm : m ∉ marks) :
    k ≠ .mark m := fun hk => hm (h m hk)

theorem MarkIn.endsType {marks : List Mark} {k : Kind} (h : MarkIn marks k)
    (hm : ∀ m ∈ [.dot, .leftAngle, .nullable], m ∉ marks) : EndsType k :=
  ⟨h.ne (hm _ (by simp)), h.ne (hm _ (by simp)), h.ne (hm _ (by simp))⟩

theorem EndsDeclaration.markIn {k : Kind} (h : EndsDeclaration k) : MarkIn [.rightBrace] k := by
  rintro m rfl
  rcases h with h | h | h
  · cases h
  · cases h
    exact List.mem_singleton_self _
  · cases h

section Next

variable {marks : List Mark} {qs : List Piece} {tail : List Lexeme}

/-- A part that is empty or begins with a mark. -/
theorem MarkIn.part {ps : List Piece} (h : MarkIn marks (opening qs tail)) (m : Mark)
    (hp : significant ps = [] ∨ ∃ rest, significant ps = .mark m :: rest) :
    MarkIn (m :: marks) (opening (ps ++ qs) tail) := by
  intro m' hm'
  unfold opening at h hm'
  rw [significant_append] at hm'
  rcases hp with hp | ⟨rest, hp⟩
  · rw [hp, List.nil_append] at hm'
    exact List.mem_cons_of_mem _ (h m' hm')
  · rw [hp] at hm'
    injection hm' with hm'
    exact hm' ▸ List.mem_cons_self

theorem MarkIn.types (h : MarkIn marks (opening qs tail)) (m : Mark) (types : List TypeReference) :
    MarkIn (m :: marks) (opening (typesPieces m types ++ qs) tail) := by
  refine h.part m ?_
  unfold typesPieces
  split
  · exact .inl rfl
  · exact .inr ⟨_, rfl⟩

theorem MarkIn.parameters (h : MarkIn marks (opening qs tail)) (ps : List Parameter) :
    MarkIn (.leftParen :: marks)
      (opening ((if ps.isEmpty then [] else parametersPieces ps) ++ qs) tail) := by
  refine h.part .leftParen ?_
  split
  · exact .inl rfl
  · exact .inr ⟨_, rfl⟩

theorem MarkIn.body (h : MarkIn marks (opening qs tail)) (lines : List Piece) :
    MarkIn (.leftBrace :: marks) (opening (bodyPieces lines ++ qs) tail) := by
  refine h.part .leftBrace ?_
  unfold bodyPieces
  split
  · exact .inl rfl
  · exact .inr ⟨_, rfl⟩

end Next

/-! ## Heads and receivers -/

/-- A parsed head with these modifiers, keyword, name and type parameters. -/
structure HeadOf (ts : List Token) (w : Keyword) (name : Bytes) (generics : List Bytes)
    (head : Head) : Prop where
  modifiers : head.modifiers = ts
  keyword : head.keyword.kind = .keyword w
  name : ∃ i, head.name = some i ∧ i.name = name
  generics : (head.typeParameters.getD []).map Identifier.name = generics

variable {β : Type} {mode : LineMode} {s s₀ : State} {qs : List Piece} {tail : List Lexeme}

theorem namedHead_then (ts : List Token) {w : Keyword} {name : Bytes} {generics : List Bytes}
    (hc : Clean s₀ s)
    (hb : s.Before ([.word w, .blank, .name name] ++ (genericsPieces generics ++ qs)) tail)
    (hn : opening qs tail ≠ .mark .leftAngle) {f : Head → Parser β} {Q : β → State → Prop}
    (hf : ∀ head s', HeadOf ts w name generics head → Clean s₀ s' → s'.Before qs tail →
      Ensures (f head) mode s' Q) :
    Ensures (namedHead ts >>= f) mode s Q := by
  have hb : s.Before (.word w :: ([.name name] ++ (genericsPieces generics ++ qs))) tail :=
    hb.congr rfl
  rw [ensures_bind]
  unfold namedHead
  refine advance_word_then hc hb fun t s₁ ht hc hb₁ => ?_
  refine (expectIdentifier_yields name).then hc hb₁ trivial ?_
  rintro _ s₂ ⟨i, rfl, hi⟩ hc hb₂
  refine (typeParameters?_yields generics).then hc hb₂ hn fun found s₃ hfound hc hb₃ => ?_
  exact hf _ s₃ ⟨rfl, ht, ⟨i, rfl, hi⟩, hfound⟩ hc hb₃

/-- A receiver with the name after it. -/
def ReceiverOf (receiver : Option TypeReference) (name : Bytes)
    (found : Option TypeExpr × Option Identifier) : Prop :=
  found.1.map typeReference = receiver ∧ ∃ i, found.2 = some i ∧ i.name = name

/-- The kinds of tokens that do not continue a name with a receiver. -/
structure EndsName (k : Kind) : Prop where
  dot : k ≠ .mark .dot
  leftAngle : k ≠ .mark .leftAngle
  safeDot : k ≠ .mark .safeDot

/-- The pieces `rs` in front of a name are its receiver: the two are found together, and they are
not taken for type parameters or for the word `data`. -/
structure Receives (P : Productions) (rs : List Piece) (receiver : Option TypeReference)
    (name : Bytes) : Prop where
  yields : Yields (receiverAndName P) (rs ++ [.name name]) EndsName (ReceiverOf receiver name)
  opens : ∀ qs tail, opening ((rs ++ [.name name]) ++ qs) tail ≠ .mark .leftAngle ∧
    opening ((rs ++ [.name name]) ++ qs) tail ≠ .keyword .data

theorem receiverAndName_yields (hP : Reparses n P) {receiver : Option TypeReference}
    (hw : areWritable receiver.toList = true) (hsize : size (receiverPieces receiver) ≤ n)
    (name : Bytes) :
    Yields (receiverAndName P) (receiverPieces receiver ++ [.name name]) EndsName
      (ReceiverOf receiver name) := by
  intro mode s qs tail hb ⟨hdot, hangle, hsafe⟩
  unfold receiverAndName
  cases receiver with
  | none =>
    have hb : s.Before (dottedPieces [name] ++ qs) tail := hb
    rw [ensures_bind, ensures_isAtAny, ensures_ite, hb.kind_eq, if_neg (by rintro ⟨⟩)]
    refine (dottedName_yields (by simp)).then (.refl s) hb hdot ?_
    rintro _ s₁ ⟨⟨parts⟩, rfl, hparts⟩ hc hb₁
    obtain ⟨i, rest, rfl, hi, hrest⟩ := List.map_eq_cons_iff.mp hparts
    rw [List.map_eq_nil_iff] at hrest
    subst hrest
    rw [ensures_bind, ensures_isAt, ensures_ite, hb₁.kind_eq, if_neg (by simpa using hangle),
      ensures_bind, ensures_isAt, ensures_bind, ensures_nextKind, ensures_ite, hb₁.kind_eq,
      if_neg (by simp [hsafe])]
    exact ⟨⟨rfl, i, rfl, hi⟩, hc, hb₁⟩
  | some t =>
    simp only [receiverPieces, size_append, size_mark, size_nil, List.cons_append] at hsize
    have hb : s.Before ((.mark .leftParen :: t.pieces ++ [.mark .rightParen]) ++
        (.mark .dot :: .name name :: qs)) tail := hb.congr (by simp [receiverPieces])
    rw [ensures_bind, ensures_isAtAny, ensures_ite, hb.kind_eq, if_pos (by rfl)]
    unfold explicitReceiver
    refine (hP.receiver (by simpa [areWritable] using hw) (by omega)).then (.refl s) hb trivial ?_
    rintro _ s₁ ⟨e, rfl, he⟩ hc hb₁
    rw [ensures_bind, ensures_isAtAny, ensures_ite, hb₁.kind_eq, if_pos (by rfl)]
    refine advance_mark_then hc hb₁ fun _ s₂ _ hc hb₂ => ?_
    refine (expectIdentifier_yields name).then hc hb₂ trivial ?_
    rintro _ s₃ ⟨i, rfl, hi⟩ hc hb₃
    exact ⟨⟨congrArg some he, i, rfl, hi⟩, hc, hb₃⟩

/-- A receiver in parentheses. -/
theorem receiverPieces_receives (hP : Reparses n P) {receiver : Option TypeReference}
    (hw : areWritable receiver.toList = true) (hsize : size (receiverPieces receiver) ≤ n)
    (name : Bytes) : Receives P (receiverPieces receiver) receiver name :=
  ⟨receiverAndName_yields hP hw hsize name, fun _ _ => by cases receiver <;> exact ⟨nofun, nofun⟩⟩

end Parts

end Yurin.Skeleton
