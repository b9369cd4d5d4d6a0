import Yurin.Proofs.Token.Rules

/-!
# What the lexer does

The lexer cuts a text into pieces that are not empty, and its tokens are these pieces in order.

Results:
* `Lexer.head_firstRule`: the first token of a text is made by the first rule that matches.
* `Lexer.head_bounds`: the first token of a text that is not empty takes at least one byte and not
  more than there are.
* `lex_lexed`: the tokens of a source are one piece of it after the other (`Lexed`), each made by
  the lexer where it begins, and an end of input. What holds of all tokens is proved by induction on
  `Lexed`.
* `mem_lex`: every token of a source is a part of it, at the offset and place that the token names,
  and its kind and length are those of `Lexer.head` where it begins.
* `text_visible`: a token that is not empty begins with a visible character, unless it is blank, a
  line break or unrecognised.
* `lex_pairwise`: the tokens of a source stand one behind the other.
-/

namespace Yurin

namespace Place

/-- The place after a text. -/
def after (p : Place) (text : Bytes) : Place := text.foldl step p

@[simp] theorem after_nil (p : Place) : p.after [] = p := rfl

@[simp] theorem after_cons (p : Place) (b : UInt8) (text : Bytes) :
    p.after (b :: text) = (p.step b).after text := rfl

theorem after_append (p : Place) (text more : Bytes) :
    p.after (text ++ more) = (p.after text).after more := List.foldl_append

theorem after_offset (p : Place) (text : Bytes) :
    (p.after text).offset = p.offset + text.length := by
  induction text generalizing p with
  | nil => rfl
  | cons b rest ih =>
    rw [after_cons, ih, step]
    split <;> simp only [List.length_cons] <;> omega

end Place

namespace Lexer

/-! ## The first rule that matches -/

/-- **The first rule of the table that matches** at the head of a text gives this kind and length.
A word that is reserved has a kind of its own. -/
def FirstRule (text : Bytes) (kind : Kind) (n : Nat) : Prop :=
  ∃ earlier rule later, rules = earlier ++ rule :: later ∧
    (∀ r ∈ earlier, r.length? text = none) ∧ rule.length? text = some n ∧
    kind = match rule.kind with
      | .identifier => wordKind (text.take n)
      | kind => kind

theorem firstMatch_eq {text : Bytes} {rs : List Rule}
    (h : ∃ r ∈ rs, (r.length? text).isSome) :
    ∃ earlier rule later n, rs = earlier ++ rule :: later ∧
      (∀ r ∈ earlier, r.length? text = none) ∧ rule.length? text = some n ∧
      firstMatch text rs = (rule.kind, n) := by
  induction rs with
  | nil =>
    obtain ⟨r, hr, -⟩ := h
    cases hr
  | cons r rest ih =>
    unfold firstMatch
    cases hfound : r.length? text with
    | some n => exact ⟨[], r, rest, n, rfl, List.forall_mem_nil _, hfound, rfl⟩
    | none =>
      obtain ⟨s, hs, hsome⟩ := h
      rcases List.mem_cons.mp hs with rfl | hs
      · simp [hfound] at hsome
      · obtain ⟨earlier, rule, later, n, rfl, hnone, hrule, hmatch⟩ := ih ⟨s, hs, hsome⟩
        refine ⟨r :: earlier, rule, later, n, rfl, fun q hq => ?_, hrule, hmatch⟩
        rcases List.mem_cons.mp hq with rfl | hq
        · exact hfound
        · exact hnone q hq

/-- The first token of a text; a word that is reserved has a kind of its own. -/
theorem head_of_firstMatch {text : Bytes} {kind : Kind} {n : Nat} :
    firstMatch text rules = (kind, n) → head text = (match kind with
      | .identifier => wordKind (text.take n)
      | kind => kind, n) := by
  intro h
  rw [head, h]
  cases kind <;> rfl

/-- **The first token of a text** is made by the first rule that matches; the last rule of the table
matches any text that is not empty. -/
theorem head_firstRule {text : Bytes} (ht : text ≠ []) :
    FirstRule text (head text).1 (head text).2 := by
  have hmatch : ∃ r ∈ rules, (r.length? text).isSome := by
    refine ⟨⟨.error, character⟩, by simp [rules], ?_⟩
    cases text with
    | nil => contradiction
    | cons => rfl
  obtain ⟨earlier, rule, later, n, hrules, hnone, hrule, hfirst⟩ := firstMatch_eq hmatch
  rw [head_of_firstMatch hfirst]
  exact ⟨earlier, rule, later, hrules, hnone, hrule, rfl⟩

/-- The rule that makes the first token of a text. -/
theorem FirstRule.exists_rule {text : Bytes} {kind : Kind} {n : Nat} (h : FirstRule text kind n) :
    ∃ rule ∈ rules, rule.length? text = some n ∧
      (kind = rule.kind ∨ rule.kind = .identifier ∧ kind = wordKind (text.take n)) := by
  obtain ⟨earlier, rule, later, hrules, -, hrule, hkind⟩ := h
  refine ⟨rule, by simp [hrules], hrule, ?_⟩
  split at hkind
  · exact .inr ⟨by assumption, hkind⟩
  · exact .inl hkind

/-! ## The first token of a text -/

/-- **The first token of a text** takes at least one byte and not more than there are. -/
theorem head_bounds {text : Bytes} (ht : text ≠ []) :
    0 < (head text).2 ∧ (head text).2 ≤ text.length := by
  obtain ⟨rule, hrule, hlength, -⟩ := (head_firstRule ht).exists_rule
  exact rules_bounded hrule hlength

/-- **The first token of a text** begins with a visible character, unless it is blank, a line break
or unrecognised. -/
theorem head_visible {text : Bytes} (ht : text ≠ []) (hk : isInk (head text).1 = true) :
    BeginsVisibly text := by
  obtain ⟨rule, hrule, hlength, hkind | ⟨hword, -⟩⟩ := (head_firstRule ht).exists_rule
  · exact rules_visible hrule (hkind ▸ hk) hlength
  · exact rules_visible hrule (by rw [hword]; rfl) hlength

theorem wordKind_ne_eof (text : Bytes) : wordKind text ≠ .eof := by
  unfold wordKind
  split <;> exact nofun

/-- No rule makes an end of input. -/
theorem head_ne_eof {text : Bytes} (ht : text ≠ []) : (head text).1 ≠ .eof := by
  obtain ⟨rule, hrule, -, hkind | ⟨-, hkind⟩⟩ := (head_firstRule ht).exists_rule
  · have hrules : ∀ r ∈ rules, r.kind ≠ .eof := by decide
    rw [hkind]
    exact hrules rule hrule
  · rw [hkind]
    exact wordKind_ne_eof _

/-! ## Token after token -/

/-- The token at the head of a text that begins at a place. -/
def headToken (p : Place) (text : Bytes) : Token :=
  ⟨(head text).1, text.take (head text).2, p.offset, p.offset + (head text).2, p.line, p.column⟩

theorem tokensFrom_skip (skip : Nat) (p : Place) (text : Bytes) (h : skip ≤ text.length) :
    tokensFrom skip p text = tokensFrom 0 (p.after (text.take skip)) (text.drop skip) := by
  induction skip generalizing p text with
  | zero => rfl
  | succ skip ih =>
    cases text with
    | nil => simp at h
    | cons b rest =>
      simp only [List.length_cons, Nat.add_le_add_iff_right] at h
      rw [tokensFrom, ih _ _ h, List.take_succ_cons, List.drop_succ_cons, Place.after_cons]

/-- **The tokens of a text**: the first one, and those of the text after it. -/
theorem tokensFrom_eq (p : Place) {text : Bytes} (ht : text ≠ []) :
    tokensFrom 0 p text = headToken p text ::
      tokensFrom 0 (p.after (text.take (head text).2)) (text.drop (head text).2) := by
  cases text with
  | nil => contradiction
  | cons b rest =>
    obtain ⟨hpos, hle⟩ := head_bounds ht
    rw [tokensFrom, headToken]
    generalize head (b :: rest) = found at hpos hle
    obtain ⟨kind, _ | n⟩ := found
    · cases hpos
    · have hle' : n ≤ rest.length := Nat.le_of_succ_le_succ hle
      simp only [Nat.add_sub_cancel, tokensFrom_skip n _ _ hle', List.take_succ_cons,
        List.drop_succ_cons, Place.after_cons]

end Lexer

/-- Where a token of a source stands: between `before` and `behind`. -/
structure Token.Within (t : Token) (source before behind : Bytes) : Prop where
  split : source = before ++ t.text ++ behind
  start : t.start = before.length
  stop : t.stop = before.length + t.text.length
  line : t.line = (Place.start.after before).line
  column : t.column = (Place.start.after before).column

/-- A part of a source from the start of a token. -/
theorem Token.Within.slice {t : Token} {source before behind : Bytes}
    (h : t.Within source before behind) {n : Nat} (hn : n ≤ t.text.length) :
    source.slice before.length (before.length + n) = t.text.take n := by
  rw [Bytes.slice, h.split, List.append_assoc, List.take_length_add_append, List.drop_left,
    List.take_append_of_le_length hn]

/-- The part of a source that the span of a token says is its text. -/
theorem Token.Within.slice_text {t : Token} {source before behind : Bytes}
    (h : t.Within source before behind) :
    source.slice t.start.toNat t.stop.toNat = t.text := by
  rw [h.start, h.stop, ← Int.natCast_add, Int.toNat_natCast, Int.toNat_natCast,
    h.slice (Nat.le_refl _), List.take_length]

/-- **A text behind `before`, cut into tokens**: pieces that are not empty, each of the kind and
length that the lexer finds where it begins, and an empty token at the end of input. -/
inductive Lexed : Bytes → Bytes → List Token → Prop
  | stop {before : Bytes} {t : Token} (hkind : t.kind = .eof) (htext : t.text = [])
      (hw : t.Within before before []) : Lexed before [] [t]
  | token {before rest : Bytes} {t : Token} {more : List Token} (hne : t.text ≠ [])
      (hhead : Lexer.head (t.text ++ rest) = (t.kind, t.text.length))
      (hw : t.Within (before ++ t.text ++ rest) before rest)
      (h : Lexed (before ++ t.text) rest more) : Lexed before (t.text ++ rest) (t :: more)

/-- The end of input behind a text. -/
theorem Lexer.endToken_within (before : Bytes) :
    (endToken (Place.start.after before)).Within before before [] where
  split := by simp [endToken]
  start := by simp [endToken, Place.after_offset, Place.start]
  stop := by simp [endToken, Place.after_offset, Place.start]
  line := rfl
  column := rfl

/-- The first token of a text that is not empty. -/
theorem Lexer.headToken_within (before : Bytes) {text : Bytes} (ht : text ≠ []) :
    (headToken (Place.start.after before) text).Within
      (before ++ text.take (head text).2 ++ text.drop (head text).2) before
      (text.drop (head text).2) where
  split := rfl
  start := by simp [headToken, Place.after_offset, Place.start]
  stop := by simp [headToken, Place.after_offset, Place.start, Nat.min_eq_left (head_bounds ht).2]
  line := rfl
  column := rfl

/-- **The lexer cuts a text into tokens**, whatever stands before it. -/
theorem Lexer.tokensFrom_lexed (before text : Bytes) :
    Lexed before text (tokensFrom 0 (Place.start.after before) text) := by
  induction hn : text.length using Nat.strongRecOn generalizing before text with
  | _ n ih =>
    subst hn
    by_cases ht : text = []
    · subst ht
      exact .stop rfl rfl (endToken_within before)
    · obtain ⟨hpos, hle⟩ := head_bounds ht
      have hsplit : (headToken (Place.start.after before) text).text ++ text.drop (head text).2 =
          text := List.take_append_drop _ text
      have hne : (headToken (Place.start.after before) text).text ≠ [] := by
        simp only [headToken, ne_eq, List.take_eq_nil_iff, not_or]
        exact ⟨Nat.pos_iff_ne_zero.mp hpos, ht⟩
      have hmore := ih _ (by rw [List.length_drop]; omega) (before ++ text.take (head text).2)
        (text.drop (head text).2) rfl
      have hlexed := Lexed.token hne (by simp [headToken, Nat.min_eq_left hle])
        (headToken_within before ht) hmore
      rwa [hsplit, Place.after_append, ← tokensFrom_eq _ ht] at hlexed

/-- **The tokens of a source.** -/
theorem lex_lexed (source : Bytes) : Lexed [] source (lex source) :=
  Lexer.tokensFrom_lexed [] source

theorem Lexed.mem {t : Token} {before text : Bytes} {tokens : List Token}
    (h : Lexed before text tokens) (ht : t ∈ tokens) :
    ∃ between behind, t.Within (before ++ text) (before ++ between) behind ∧
      (t.kind = .eof ∧ t.text = [] ∧ behind = [] ∨
        t.text ≠ [] ∧ Lexer.head (t.text ++ behind) = (t.kind, t.text.length)) := by
  induction h with
  | stop hkind htext hw =>
    obtain rfl := List.mem_singleton.mp ht
    exact ⟨[], [], by simpa using hw, .inl ⟨hkind, htext, rfl⟩⟩
  | @token before rest u more hne hhead hw _ ih =>
    rcases List.mem_cons.mp ht with rfl | ht
    · exact ⟨[], rest, by simpa using hw, .inr ⟨hne, hhead⟩⟩
    · obtain ⟨between, behind, hmem, hkind⟩ := ih ht
      refine ⟨u.text ++ between, behind, ?_, hkind⟩
      simpa only [List.append_assoc] using hmem

/-- **Every token of a source is a part of it**, and the lexer finds it where it begins. -/
theorem mem_lex {t : Token} {source : Bytes} (h : t ∈ lex source) :
    ∃ before behind, t.Within source before behind ∧
      (t.kind = .eof ∧ t.text = [] ∧ behind = [] ∨
        t.text ≠ [] ∧ Lexer.head (t.text ++ behind) = (t.kind, t.text.length)) := by
  obtain ⟨before, behind, hw, hkind⟩ := (lex_lexed source).mem h
  exact ⟨before, behind, hw, hkind⟩

/-- Only the end of input is empty. -/
theorem kind_eq_eof_iff {t : Token} {source : Bytes} (h : t ∈ lex source) :
    t.kind = .eof ↔ t.text = [] := by
  obtain ⟨before, behind, -, ⟨hkind, htext, -⟩ | ⟨hne, hhead⟩⟩ := mem_lex h
  · exact iff_of_true hkind htext
  · have heof := Lexer.head_ne_eof (List.append_ne_nil_of_left_ne_nil hne behind)
    rw [hhead] at heof
    exact iff_of_false heof hne

/-- A token that is not empty begins with a visible character, unless it is blank, a line break or
unrecognised. -/
theorem text_visible {t : Token} {source : Bytes} (h : t ∈ lex source) (hne : t.text ≠ [])
    (hk : Lexer.isInk t.kind = true) : Lexer.BeginsVisibly t.text := by
  obtain ⟨before, behind, -, ⟨-, hempty, -⟩ | ⟨-, hhead⟩⟩ := mem_lex h
  · contradiction
  · have hink : Lexer.isInk (Lexer.head (t.text ++ behind)).1 = true := by
      rw [hhead]
      exact hk
    obtain ⟨b, rest, hb, hvisible⟩ :=
      Lexer.head_visible (List.append_ne_nil_of_left_ne_nil hne behind) hink
    obtain ⟨c, more, htext⟩ := List.exists_cons_of_ne_nil hne
    rw [htext] at hb
    injection hb with hb
    exact ⟨c, more, htext, hb ▸ hvisible⟩

/-- **Tokens that are not empty, and the end of input** behind all of the text. -/
theorem Lexed.ends {before text : Bytes} {tokens : List Token} (h : Lexed before text tokens) :
    ∃ init last, tokens = init ++ [last] ∧ (∀ t ∈ init, t.text ≠ [] ∧ t.kind ≠ .eof) ∧
      last.kind = .eof ∧ last.text = [] ∧ last.Within (before ++ text) (before ++ text) [] := by
  induction h with
  | @stop before t hkind htext hw =>
    exact ⟨[], t, rfl, List.forall_mem_nil _, hkind, htext, by rwa [List.append_nil]⟩
  | @token before rest t more hne hhead hw _ ih =>
    obtain ⟨init, last, rfl, hinit, hkind, htext, hlast⟩ := ih
    refine ⟨t :: init, last, rfl, fun u hu => ?_, hkind, htext, ?_⟩
    · rcases List.mem_cons.mp hu with rfl | hu
      · have heof := Lexer.head_ne_eof (List.append_ne_nil_of_left_ne_nil hne rest)
        rw [hhead] at heof
        exact ⟨hne, heof⟩
      · exact hinit u hu
    · rwa [← List.append_assoc]

/-! ## Order -/

/-- The tokens of a text stand one behind the other. -/
theorem Lexed.pairwise {before text : Bytes} {tokens : List Token} (h : Lexed before text tokens) :
    tokens.Pairwise fun t u => t.stop ≤ u.start := by
  induction h with
  | stop => exact List.pairwise_singleton _ _
  | token _ _ hw h ih =>
    refine List.pairwise_cons.mpr ⟨fun u hu => ?_, ih⟩
    obtain ⟨between, behind, hmem, -⟩ := h.mem hu
    rw [hw.stop, hmem.start]
    simp only [List.length_append]
    omega

/-- **The tokens of a source stand one behind the other.** -/
theorem lex_pairwise (source : Bytes) :
    (lex source).Pairwise fun t u => t.stop ≤ u.start :=
  (lex_lexed source).pairwise

/-- Nothing comes after the end of input. -/
theorem lex_open (source : Bytes) : (lex source).Pairwise fun t _ => t.kind ≠ .eof := by
  obtain ⟨init, last, hsplit, hinit, -, -, -⟩ := (lex_lexed source).ends
  rw [hsplit, List.pairwise_append]
  refine ⟨?_, List.pairwise_singleton _ _, fun t ht _ _ => (hinit t ht).2⟩
  exact List.pairwise_of_forall_mem_list fun t ht _ _ => (hinit t ht).2

/-- A token that is not the end of input takes up some of the source. -/
theorem start_lt_stop {t : Token} {source : Bytes} (h : t ∈ lex source) (hk : t.kind ≠ .eof) :
    t.start < t.stop := by
  obtain ⟨before, behind, hw, ⟨heof, -⟩ | ⟨hne, -⟩⟩ := mem_lex h
  · contradiction
  · have := List.length_pos_iff.mpr hne
    rw [hw.start, hw.stop]
    omega

end Yurin
