import Yurin.Proofs.Parser.Sound
import Yurin.Proofs.Parser.Stream
import Yurin.Proofs.Token.Pieces

/-!
# Parsing a text that is made of pieces

`State.Before s pieces tail`: the parser stands before tokens that spell the significant ones of
some pieces, with `tail` after them. `Yields p pieces next good`: the parser `p` matches exactly the
pieces, without a complaint, and finds a result that is `good`, where the kind of the token after
them satisfies `next`.

Between these two, a parser is followed piece by piece. Each part of a phrase that may be left out
needs the kind of the token that is there instead, which `opening` gives.
-/

namespace Yurin

/-- The pieces that the parser sees. -/
def significant (pieces : List Piece) : List Piece := pieces.filter fun p => !p.kind.isTrivia

/-- A significant token that is the token of a piece. The marks that have to stand on the line of
what comes before them do so. -/
structure Lexeme.Spells (l : Lexeme) (p : Piece) : Prop where
  kind : l.token.kind = p.kind
  text : l.token.text = p.text
  inline : p.kind = .mark .leftAngle ∨ p.kind = .mark .nullable → l.afterBreak = false

@[simp] theorem significant_append (ps qs : List Piece) :
    significant (ps ++ qs) = significant ps ++ significant qs := List.filter_append ..

@[simp] theorem significant_blank (ps : List Piece) :
    significant (.blank :: ps) = significant ps := rfl

@[simp] theorem significant_lineEnd (ps : List Piece) :
    significant (.lineEnd :: ps) = significant ps := rfl

@[simp] theorem significant_mark (m : Mark) (ps : List Piece) :
    significant (.mark m :: ps) = .mark m :: significant ps := rfl

@[simp] theorem significant_word (w : Keyword) (ps : List Piece) :
    significant (.word w :: ps) = .word w :: significant ps := rfl

@[simp] theorem significant_name (n : Bytes) (ps : List Piece) :
    significant (.name n :: ps) = .name n :: significant ps := rfl

namespace Significant

/-- **The significant tokens of linked pieces** spell them, and no character is unrecognised. -/
theorem ofTokens_spells {ps : List Piece} {ts : List Token} {final : Token} (hps : Linked ps none)
    (hts : List.Forall₂ Token.Of ts ps) (hfinal : final.kind = .eof) (sawBreak : Bool)
    (last : Option Token)
    (hbreak : sawBreak = true → ∀ b ∈ firstByte ps none, Kind.newline.allows b = true) :
    ∃ ls e, ofTokens sawBreak last (ts ++ [final]) = ⟨ls ++ [e], []⟩ ∧
      List.Forall₂ Lexeme.Spells ls (significant ps) ∧ e.token.kind = .eof := by
  induction hts generalizing sawBreak last with
  | nil =>
    refine ⟨[], ⟨final, sawBreak⟩, ?_, .nil, hfinal⟩
    have hkept : final.isSignificant = true := by
      rw [Token.isSignificant, hfinal]
      rfl
    rw [List.nil_append, ofTokens_keep [] _ _ hkept]
    simp [ofTokens, hfinal]
  | @cons t p ts ps ht _ ih =>
    obtain ⟨hp, hnext, hrest⟩ := hps
    have keep (htriv : p.kind.isTrivia = false) (he : p.kind ≠ .error)
        (hinline : p.kind = .mark .leftAngle ∨ p.kind = .mark .nullable → sawBreak = false)
        (hsig : significant (p :: ps) = p :: significant ps) :
        ∃ ls e, ofTokens sawBreak last ((t :: ts) ++ [final]) = ⟨ls ++ [e], []⟩ ∧
          List.Forall₂ Lexeme.Spells ls (significant (p :: ps)) ∧ e.token.kind = .eof := by
      obtain ⟨ls, e, heq, hls, hk⟩ := ih hrest false (some t) fun h => absurd h Bool.false_ne_true
      refine ⟨⟨t, sawBreak⟩ :: ls, e, ?_, ?_, hk⟩
      · have hkept : t.isSignificant = true :=
          Token.isSignificant_iff.mpr ⟨ht.1 ▸ htriv, ht.1 ▸ he⟩
        rw [List.cons_append, ofTokens_keep _ _ _ hkept, heq]
        rfl
      · rw [hsig]
        exact .cons ⟨ht.1, ht.2, hinline⟩ hls
    cases hp with
    | blank =>
      have hclosed : sawBreak = false := by
        by_contra h
        exact absurd (hbreak (by simpa using h) 32 rfl) (by decide)
      obtain ⟨ls, e, heq, hls, hk⟩ := ih hrest sawBreak last (by simp [hclosed])
      refine ⟨ls, e, ?_, hls, hk⟩
      rw [List.cons_append, ofTokens, ht.1]
      exact heq
    | lineEnd =>
      obtain ⟨ls, e, heq, hls, hk⟩ := ih hrest true last fun _ => hnext
      refine ⟨ls, e, ?_, hls, hk⟩
      rw [List.cons_append, ofTokens, ht.1]
      exact heq
    | @mark m hm =>
      refine keep rfl (by intro h; cases h) (fun h => ?_) rfl
      by_contra hsaw
      have hallow := hbreak (by simpa using hsaw)
      rcases h with h | h
      · cases h
        exact absurd (hallow 60 rfl) (by decide)
      · cases h
        exact absurd (hallow 63 rfl) (by decide)
    | word => exact keep rfl (by intro h; cases h) (by rintro (h | h) <;> cases h) rfl
    | name => exact keep rfl (by intro h; cases h) (by rintro (h | h) <;> cases h) rfl

end Significant

namespace Parser

/-! ## Before pieces -/

/-- The parser stands before tokens that spell the pieces; then comes `tail`. -/
def State.Before (s : State) (ps : List Piece) (tail : List Lexeme) : Prop :=
  ∃ ls, s.ahead = ls ++ tail ∧ List.Forall₂ Lexeme.Spells ls (significant ps) ∧ tail ≠ []

/-- The kind of the first token of the pieces, or else of what comes after them. -/
def opening (ps : List Piece) (tail : List Lexeme) : Kind :=
  match significant ps with
  | p :: _ => p.kind
  | [] => (tail.headD default).token.kind

@[simp] theorem opening_nil (tail : List Lexeme) :
    opening [] tail = (tail.headD default).token.kind := rfl

@[simp] theorem opening_blank (ps : List Piece) (tail : List Lexeme) :
    opening (.blank :: ps) tail = opening ps tail := rfl

@[simp] theorem opening_lineEnd (ps : List Piece) (tail : List Lexeme) :
    opening (.lineEnd :: ps) tail = opening ps tail := rfl

@[simp] theorem opening_mark (m : Mark) (ps : List Piece) (tail : List Lexeme) :
    opening (.mark m :: ps) tail = .mark m := rfl

@[simp] theorem opening_word (w : Keyword) (ps : List Piece) (tail : List Lexeme) :
    opening (.word w :: ps) tail = .keyword w := rfl

@[simp] theorem opening_name (n : Bytes) (ps : List Piece) (tail : List Lexeme) :
    opening (.name n :: ps) tail = .identifier := rfl

/-- How many tokens pieces spell. -/
def size (ps : List Piece) : Nat := (significant ps).length

@[simp] theorem size_append (ps qs : List Piece) : size (ps ++ qs) = size ps + size qs := by
  simp [size]

@[simp] theorem size_nil : size [] = 0 := rfl

@[simp] theorem size_blank (ps : List Piece) : size (.blank :: ps) = size ps := rfl

@[simp] theorem size_lineEnd (ps : List Piece) : size (.lineEnd :: ps) = size ps := rfl

@[simp] theorem size_mark (m : Mark) (ps : List Piece) : size (.mark m :: ps) = size ps + 1 := rfl

@[simp] theorem size_word (w : Keyword) (ps : List Piece) :
    size (.word w :: ps) = size ps + 1 := rfl

@[simp] theorem size_name (n : Bytes) (ps : List Piece) : size (.name n :: ps) = size ps + 1 := rfl

namespace State.Before

variable {s : State} {ps : List Piece} {tail : List Lexeme}

/-- Blanks and line ends are not seen. -/
theorem congr {qs : List Piece} (h : s.Before ps tail) (heq : significant ps = significant qs) :
    s.Before qs tail := by
  unfold State.Before at h ⊢
  rwa [heq] at h

theorem kind_eq (h : s.Before ps tail) : s.current.token.kind = opening ps tail := by
  obtain ⟨ls, ha, hls, hne⟩ := h
  unfold opening
  generalize significant ps = shown at hls
  cases hls with
  | nil =>
    obtain ⟨l, rest, rfl⟩ := List.exists_cons_of_ne_nil hne
    injection ha with hcur _
    rw [hcur]
    rfl
  | cons hl _ =>
    injection ha with hcur _
    rw [hcur]
    exact hl.kind

theorem length_eq (h : s.Before ps tail) : s.rest.length + 1 = size ps + tail.length := by
  obtain ⟨ls, ha, hls, -⟩ := h
  have hlen := congrArg List.length ha
  simp only [State.ahead, List.length_cons, List.length_append] at hlen
  rw [hlen, hls.length_eq, size]

/-- The current token spells the first piece, and another one comes after it. -/
theorem current {p : Piece} (h : s.Before (p :: ps) tail) (hp : p.kind.isTrivia = false) :
    s.current.Spells p ∧ ∃ l rest, s.rest = l :: rest ∧
      ∀ s' : State, s'.ahead = l :: rest → s'.Before ps tail := by
  obtain ⟨ls, ha, hls, hne⟩ := h
  have hsig : significant (p :: ps) = p :: significant ps := by
    rw [significant, List.filter_cons_of_pos (by simp [hp])]
    rfl
  rw [hsig] at hls
  cases hls with
  | @cons l _ ls _ hl hls =>
    injection ha with hcur hrest
    refine ⟨hcur ▸ hl, ?_⟩
    obtain ⟨l', rest', hl'⟩ := List.exists_cons_of_ne_nil (l := ls ++ tail) (by simp [hne])
    exact ⟨l', rest', hrest.trans hl', fun s' hs' => ⟨ls, hs'.trans hl'.symm, hls, hne⟩⟩

/-- The kind of the token after the current one. -/
theorem next_kind {p : Piece} (h : s.Before (p :: ps) tail) (hp : p.kind.isTrivia = false) :
    (s.rest.headD s.current).token.kind = opening ps tail := by
  obtain ⟨-, l, rest, hrest, hmove⟩ := h.current hp
  rw [hrest, List.headD_cons, ← (hmove (s.moveTo l rest) rfl).kind_eq]
  rfl

end State.Before

/-! ## Clean runs -/

/-- The parser gets from `s` to `s'` by matching tokens only. -/
def Clean (s s' : State) : Prop := ∃ ls : List Lexeme, Run s (ls.map .matched) s'

theorem Clean.refl (s : State) : Clean s s := ⟨[], .nil s⟩

theorem Clean.trans {s s' s'' : State} (h : Clean s s') (h' : Clean s' s'') : Clean s s'' := by
  obtain ⟨ls, run⟩ := h
  obtain ⟨ls', run'⟩ := h'
  exact ⟨ls ++ ls', by rw [List.map_append]; exact run.append run'⟩

theorem complaintsOf_matched (ls : List Lexeme) : complaintsOf (ls.map .matched) = [] := by
  simp [complaintsOf, List.filterMap_map, Function.comp_def, Event.complaint?]

/-- A clean run makes no complaint. -/
theorem Clean.complaints_eq {s s' : State} (h : Clean s s') : s'.complaints = s.complaints := by
  obtain ⟨ls, run⟩ := h
  rw [run.complaints_eq, complaintsOf_matched]
  rfl

theorem Clean.calm {s s' : State} (h : Clean s s') (hs : s.recovering = false) :
    s'.recovering = false := by
  obtain ⟨ls, run⟩ := h
  exact run.calm hs (complaintsOf_matched ls)

/-- What is consumed is missing from what lies ahead. -/
theorem Clean.total {s s' : State} (h : Clean s s') :
    s.consumed + s.rest.length = s'.consumed + s'.rest.length := by
  obtain ⟨ls, run⟩ := h
  have h₁ := run.consumed_eq
  have h₂ := run.rest_length
  omega

/-- **The parser matches exactly the pieces**, and its result is `good`. -/
def Yields {α : Type} (p : Parser α) (ps : List Piece) (next : Kind → Prop) (good : α → Prop) :
    Prop :=
  ∀ ⦃mode : LineMode⦄ ⦃s : State⦄ ⦃qs : List Piece⦄ ⦃tail : List Lexeme⦄,
    s.Before (ps ++ qs) tail → next (opening qs tail) →
      Ensures p mode s fun a s' => good a ∧ Clean s s' ∧ s'.Before qs tail

section Parts

variable {α β : Type} {mode : LineMode} {s s₀ : State} {ps qs : List Piece} {tail : List Lexeme}
  {next : Kind → Prop} {good : α → Prop} {Q : β → State → Prop}

/-- Runs a parser of the next pieces as a part of a larger one. -/
theorem Yields.then {p : Parser α} (hp : Yields p ps next good) (hc : Clean s₀ s)
    (hb : s.Before (ps ++ qs) tail) (hn : next (opening qs tail)) {f : α → Parser β}
    (hf : ∀ a s', good a → Clean s₀ s' → s'.Before qs tail → Ensures (f a) mode s' Q) :
    Ensures (p >>= f) mode s Q := by
  rw [ensures_bind]
  exact (hp hb hn).mono fun a s' ⟨hg, hc', hb'⟩ => hf a s' hg (hc.trans hc') hb'

/-- Matches the token of a piece. -/
theorem advance_piece_then {p : Piece} (hc : Clean s₀ s) (hb : s.Before (p :: qs) tail)
    (hp : p.kind.isTrivia = false) (hne : p.kind ≠ .eof) {f : Token → Parser β}
    (hf : ∀ t s', t.kind = p.kind → t.text = p.text → Clean s₀ s' → s'.Before qs tail →
      Ensures (f t) mode s' Q) :
    Ensures (advance >>= f) mode s Q := by
  obtain ⟨hspell, l, rest, hrest, hmove⟩ := hb.current hp
  have hk : s.current.token.kind ≠ .eof := hspell.kind ▸ hne
  have step := State.Step.matched s hk hrest
  rw [← State.next_eq hk hrest] at step
  refine hf s.current.token _ hspell.kind hspell.text (hc.trans ⟨[s.current], .single step⟩) ?_
  apply hmove
  rw [State.next_eq hk hrest]
  rfl

theorem advance_mark_then {m : Mark} (hc : Clean s₀ s) (hb : s.Before (.mark m :: qs) tail)
    {f : Token → Parser β}
    (hf : ∀ t s', t.kind = .mark m → Clean s₀ s' → s'.Before qs tail → Ensures (f t) mode s' Q) :
    Ensures (advance >>= f) mode s Q :=
  advance_piece_then hc hb rfl nofun fun t s' hk _ => hf t s' hk

theorem advance_word_then {w : Keyword} (hc : Clean s₀ s) (hb : s.Before (.word w :: qs) tail)
    {f : Token → Parser β}
    (hf : ∀ t s', t.kind = .keyword w → Clean s₀ s' → s'.Before qs tail →
      Ensures (f t) mode s' Q) :
    Ensures (advance >>= f) mode s Q :=
  advance_piece_then hc hb rfl nofun fun t s' hk _ => hf t s' hk

theorem accept_yields {p : Piece} (hp : p.kind.isTrivia = false) (hne : p.kind ≠ .eof) :
    Yields (accept p.kind) [p] (fun _ => True) (· = true) := by
  intro mode s qs tail hb _
  obtain ⟨hspell, -⟩ := hb.current hp
  unfold accept
  rw [ensures_bind, ensures_isAt, ensures_ite, if_pos (by simp [hspell.kind])]
  exact advance_piece_then (.refl s) hb hp hne fun t s' _ _ hc hb' => ⟨rfl, hc, hb'⟩

/-- Nothing is consumed where another token stands. -/
theorem accept_absent (k : Kind) : Yields (accept k) [] (· ≠ k) (· = false) := by
  intro mode s qs tail hb hn
  unfold accept
  rw [ensures_bind, ensures_isAt, ensures_ite, if_neg (by rw [hb.kind_eq]; simpa using hn)]
  exact ⟨rfl, .refl s, hb⟩

theorem expect_yields {p : Piece} (hp : p.kind.isTrivia = false) (hne : p.kind ≠ .eof) :
    Yields (expect p.kind) [p] (fun _ => True) fun t => ∃ u, t = some u ∧ u.text = p.text := by
  intro mode s qs tail hb _
  obtain ⟨hspell, -⟩ := hb.current hp
  unfold expect
  rw [ensures_bind, ensures_isAt, ensures_ite, if_pos (by simp [hspell.kind])]
  exact advance_piece_then (.refl s) hb hp hne fun t s' _ ht hc hb' => ⟨⟨t, rfl, ht⟩, hc, hb'⟩

theorem expectUnit_yields (m : Mark) :
    Yields (expect_ (.mark m)) [.mark m] (fun _ => True) fun _ => True := by
  intro mode s qs tail hb hn
  unfold expect_
  exact (expect_yields (p := .mark m) rfl nofun).then (.refl s) hb hn
    fun _ s' _ hc hb' => ⟨trivial, hc, hb'⟩

theorem expectIdentifier_yields (n : Bytes) :
    Yields expectIdentifier [.name n] (fun _ => True) fun i => ∃ u, i = some u ∧ u.name = n := by
  intro mode s qs tail hb hn
  unfold expectIdentifier
  refine (expect_yields (p := .name n) rfl nofun).then (.refl s) hb hn ?_
  rintro _ s' ⟨u, rfl, hu⟩ hc hb'
  exact ⟨⟨⟨u⟩, rfl, hu⟩, hc, hb'⟩

end Parts

/-! ## Loops -/

section Loops

variable {α ι : Type} {step : Parser (Step α)} {pieces : ι → List Piece} {good : ι → α → Prop}
  {follow last : Kind → Prop}

/-- One run of a loop finds the item of the pieces, and the loop goes on. -/
def FindsItem (step : Parser (Step α)) (ps : List Piece) (follow : Kind → Prop) (good : α → Prop) :
    Prop :=
  Yields step ps follow fun found => ∃ a, found.item = some a ∧ found.more = true ∧ good a

/-- A loop that stops at once. -/
theorem collect_none {mode : LineMode} {s : State}
    (hstop : Ensures step mode s fun found s' => found = .stop ∧ s' = s) :
    Ensures (collect step) mode s fun as s' => as = [] ∧ s' = s := by
  unfold collect collectUpTo
  rw [ensures_bind, ensures_get, ensures_bind]
  refine hstop.mono ?_
  rintro _ _ ⟨rfl, rfl⟩
  exact ⟨rfl, rfl⟩

/-- **A loop over items**, which stops at the pieces `qs` without consuming anything. -/
theorem collect_items {items : List ι} {mode : LineMode} {s : State} {qs : List Piece}
    {tail : List Lexeme} (hb : s.Before (items.flatMap pieces ++ qs) tail)
    (hfind : ∀ i ∈ items, FindsItem step (pieces i) follow (good i))
    (hsize : ∀ i ∈ items, 0 < size (pieces i))
    (hopen : ∀ i ∈ items, ∀ qs tail, follow (opening (pieces i ++ qs) tail))
    (hlast : follow (opening qs tail))
    (hstop : ∀ s : State, s.Before qs tail →
      Ensures step mode s fun found s' => found = .stop ∧ s' = s) :
    Ensures (collect step) mode s fun as s' =>
      List.Forall₂ good items as ∧ Clean s s' ∧ s'.Before qs tail := by
  unfold collect
  rw [ensures_bind, ensures_get]
  -- the fuel is more than the tokens that are left
  have hfuel : s.rest.length < s.rest.length + 1 := Nat.lt_succ_self _
  generalize s.rest.length + 1 = fuel at hfuel
  induction items generalizing s fuel with
  | nil =>
    obtain _ | fuel := fuel
    · cases hfuel
    unfold collectUpTo
    rw [ensures_bind]
    refine (hstop s hb).mono ?_
    rintro _ _ ⟨rfl, rfl⟩
    exact ⟨.nil, .refl _, hb⟩
  | cons i items ih =>
    obtain _ | fuel := fuel
    · cases hfuel
    have hlen := hb.length_eq
    rw [List.flatMap_cons, List.append_assoc] at hb
    have hfollow : follow (opening (items.flatMap pieces ++ qs) tail) := by
      cases items with
      | nil => exact hlast
      | cons j items =>
        rw [List.flatMap_cons, List.append_assoc]
        exact hopen j (List.mem_cons_of_mem _ List.mem_cons_self) _ _
    unfold collectUpTo
    refine (hfind i List.mem_cons_self).then (.refl s) hb hfollow ?_
    rintro found s₁ ⟨a, hitem, hmore, ha⟩ hc hb₁
    have hlen₁ := hb₁.length_eq
    have hpos := hsize i List.mem_cons_self
    simp only [size_append, List.flatMap_cons] at hlen hlen₁
    rw [ensures_ite, if_pos hmore, ensures_bind, hitem]
    refine (ih hb₁ (fun j hj => hfind j (List.mem_cons_of_mem _ hj))
      (fun j hj => hsize j (List.mem_cons_of_mem _ hj))
      (fun j hj => hopen j (List.mem_cons_of_mem _ hj)) fuel (by omega)).mono ?_
    rintro as s₂ ⟨has, hc₂, hb₂⟩
    exact ⟨.cons ha has, hc.trans hc₂, hb₂⟩

/-- An item of a sequence that is there is found without error recovery. -/
theorem progress_yields {item : Parser (Option α)} {ps : List Piece} {next : Kind → Prop}
    {good : Option α → Prop} (hitem : Yields item ps next good) (hpos : 0 < size ps)
    (due : Expectation) (ends : Lexeme → Bool) :
    Yields (progress item due ends) ps next fun found => found.more = true ∧ good found.item := by
  intro mode s qs tail hb hn
  have hlen := hb.length_eq
  rw [size_append] at hlen
  unfold progress
  rw [ensures_bind, ensures_consumed]
  refine hitem.then (.refl s) hb hn fun a s₁ ha hc hb₁ => ?_
  have hlen₁ := hb₁.length_eq
  have htotal := hc.total
  have hmoved : s₁.consumed ≠ s.consumed := by omega
  rw [ensures_bind, ensures_consumed, ensures_ite, if_neg (by simpa using hmoved)]
  exact ⟨⟨rfl, ha⟩, hc, hb₁⟩

/-- Where the parser is after an item and the comma that may follow it. -/
def AfterComma (qs : List Piece) (tail : List Lexeme) (more : Bool) (s : State) : Prop :=
  (∃ rest, qs = .mark .comma :: rest ∧ more = true ∧ s.Before rest tail) ∨
    (opening qs tail ≠ .mark .comma ∧ more = false ∧ s.Before qs tail)

/-- One run of a loop finds the item of the pieces, and goes on when a comma follows. -/
def FindsListed (step : Parser (Step α)) (ps : List Piece) (follow : Kind → Prop)
    (good : α → Prop) : Prop :=
  ∀ ⦃mode : LineMode⦄ ⦃s : State⦄ ⦃qs : List Piece⦄ ⦃tail : List Lexeme⦄,
    s.Before (ps ++ qs) tail → follow (opening qs tail) →
      ((∃ rest, qs = .mark .comma :: rest) ∨ opening qs tail ≠ .mark .comma) →
      Ensures step mode s fun found s' =>
        ∃ a, found.item = some a ∧ good a ∧ Clean s s' ∧ AfterComma qs tail found.more s'

/-- Ends a run of a loop that found an item. -/
theorem accept_comma (good : α → Prop) {mode : LineMode} {s s₀ : State} {qs : List Piece}
    {tail : List Lexeme} {a : α} (ha : good a) (hc : Clean s₀ s) (hb : s.Before qs tail)
    (hq : (∃ rest, qs = .mark .comma :: rest) ∨ opening qs tail ≠ .mark .comma) :
    Ensures (do return (⟨some a, ← accept (.mark .comma)⟩ : Step α)) mode s fun found s' =>
      ∃ a, found.item = some a ∧ good a ∧ Clean s₀ s' ∧ AfterComma qs tail found.more s' := by
  rcases hq with ⟨rest, rfl⟩ | hk
  · refine (accept_yields (p := .mark .comma) rfl nofun).then hc hb trivial ?_
    rintro _ s' rfl hc' hb'
    exact ⟨a, rfl, ha, hc', .inl ⟨rest, rfl, rfl, hb'⟩⟩
  · refine (accept_absent (.mark .comma)).then hc hb hk ?_
    rintro _ s' rfl hc' hb'
    exact ⟨a, rfl, ha, hc', .inr ⟨hk, rfl, hb'⟩⟩

/-- **A loop over items with commas between them**, which ends where no comma follows. -/
theorem collect_commas {items : List ι} (hne : items ≠ [])
    (hfind : ∀ i ∈ items, FindsListed step (pieces i) follow (good i))
    (hsize : ∀ i ∈ items, 0 < size (pieces i)) (hcomma : follow (.mark .comma))
    (hlast : ∀ k, last k → follow k ∧ k ≠ .mark .comma) :
    Yields (collect step) (commaPieces (items.map pieces)) last (List.Forall₂ good items) := by
  intro mode s qs tail hb hn
  unfold collect
  rw [ensures_bind, ensures_get]
  have hfuel : s.rest.length < s.rest.length + 1 := Nat.lt_succ_self _
  generalize s.rest.length + 1 = fuel at hfuel
  induction items generalizing s fuel with
  | nil => contradiction
  | cons i items ih =>
    obtain _ | fuel := fuel
    · cases hfuel
    unfold collectUpTo
    rw [ensures_bind]
    have hi := hfind i List.mem_cons_self
    have hpos := hsize i List.mem_cons_self
    have hlen := hb.length_eq
    cases items with
    | nil =>
      obtain ⟨hfollow, hnot⟩ := hlast _ hn
      refine (hi hb hfollow (.inr hnot)).mono ?_
      rintro found s₁ ⟨a, hitem, ha, hc, ⟨rest, rfl, -, -⟩ | ⟨-, hmore, hb₁⟩⟩
      · exact absurd rfl hnot
      · rw [ensures_ite, if_neg (by simp [hmore]), ensures_pure, hitem]
        exact ⟨.cons ha .nil, hc, hb₁⟩
    | cons j items =>
      simp only [List.map_cons, commaPieces, separated, List.append_assoc, List.cons_append,
        List.nil_append] at hb hlen
      refine (hi hb hcomma (.inl ⟨_, rfl⟩)).mono ?_
      rintro found s₁ ⟨a, hitem, ha, hc, ⟨rest, hrest, hmore, hb₁⟩ | ⟨hnot, -, -⟩⟩
      · injection hrest with _ hrest
        subst hrest
        have hlen₁ := hb₁.length_eq
        simp only [size_append, size_mark, size_blank] at hlen hlen₁
        rw [ensures_ite, if_pos hmore, ensures_bind, hitem]
        refine (ih (by simp) (fun j hj => hfind j (List.mem_cons_of_mem _ hj))
          (fun j hj => hsize j (List.mem_cons_of_mem _ hj)) (hb₁.congr rfl) fuel (by omega)).mono ?_
        rintro as s₂ ⟨has, hc₂, hb₂⟩
        exact ⟨.cons ha has, hc.trans hc₂, hb₂⟩
      · exact absurd rfl hnot

end Loops

end Parser

end Yurin
