import Yurin.Proofs.Token.Pieces

/-!
# Tokens with blanks between them

A lexeme is a text that is lexed as one token when it stands alone. Blanks, line breaks, line
comments and unrecognised characters are left out: what follows may become part of them. A lexeme is
lexed in the same way before a blank (`head_spaced`), and every token of a source is a lexeme,
whatever follows it there (`head_alone`).

Both come from comparing the rules of the lexer on two texts (`head_congr`). A match that does not
go beyond a text is not changed by what follows the text, except where a rule looks at the byte
behind its match, or searches for the end of a comment or of a string literal.

Result: `lexemes_spaced`.
-/

namespace Yurin

/-- The kinds of tokens that what follows may become part of, and unrecognised characters. -/
def Kind.isLoose : Kind → Bool
  | .error | .whitespace | .newline | .lineComment => true
  | _ => false

namespace Lexer

/-! ## Matches that do not go beyond a text -/

section Append

variable {text rest : Bytes} {n : Nat}

theorem spelled_append {spelling : Bytes} (hn : n ≤ text.length) :
    spelled spelling (text ++ rest) = some n ↔ spelled spelling text = some n := by
  have hbegins (hlen : spelling.length ≤ text.length) :
      spelling <+: text ++ rest ↔ spelling <+: text :=
    ⟨fun h => List.prefix_of_prefix_length_le h (List.prefix_append text rest) hlen,
      fun h => h.trans (List.prefix_append text rest)⟩
  rw [spelled_eq_some_iff, spelled_eq_some_iff]
  constructor
  · rintro ⟨h, rfl⟩
    exact ⟨(hbegins hn).mp h, rfl⟩
  · rintro ⟨h, rfl⟩
    exact ⟨(hbegins hn).mpr h, rfl⟩

theorem commentClose_ne_zero : commentClose text ≠ some 0 := by
  unfold commentClose
  split
  · nofun
  · nofun
  · split <;> simp

theorem commentClose_append (hn : n ≤ text.length) :
    commentClose (text ++ rest) = some n ↔ commentClose text = some n := by
  induction text generalizing n with
  | nil =>
    obtain rfl : n = 0 := Nat.le_zero.mp hn
    exact iff_of_false commentClose_ne_zero nofun
  | cons a text ih =>
    cases text with
    | nil =>
      refine iff_of_false (fun h => ?_) nofun
      have hle : n ≤ 1 := hn
      cases rest with
      | nil => cases h
      | cons b rest =>
        rw [List.singleton_append, commentClose] at h
        split at h
        · cases h
          omega
        · obtain ⟨m, hm, rfl⟩ := Option.map_eq_some_iff.mp h
          obtain rfl : m = 0 := by omega
          exact commentClose_ne_zero hm
    | cons b text =>
      rw [List.cons_append, List.cons_append, commentClose, commentClose, ← List.cons_append]
      split
      · rfl
      · cases n with
        | zero => simp
        | succ n => simpa using ih (Nat.le_of_succ_le_succ hn)

theorem blockComment_append (hn : n ≤ text.length) :
    blockComment (text ++ rest) = some n ↔ blockComment text = some n := by
  rw [blockComment_eq_some_iff, blockComment_eq_some_iff]
  constructor
  · rintro ⟨body, m, hbody, hm, rfl⟩
    match text, hn with
    | a :: b :: more, hn =>
      simp only [List.cons_append, List.cons.injEq] at hbody
      obtain ⟨rfl, rfl, rfl⟩ := hbody
      exact ⟨more, m, rfl, (commentClose_append (by simpa using hn)).mp hm, rfl⟩
  · rintro ⟨body, m, rfl, hm, rfl⟩
    exact ⟨body ++ rest, m, rfl, (commentClose_append (by simpa using hn)).mpr hm, rfl⟩

theorem quoteClose_ne_zero {escaped : Bool} : quoteClose escaped text ≠ some 0 := by
  unfold quoteClose
  split
  · nofun
  · split <;> simp
  · split
    · simp
    · split <;> simp

theorem quoteClose_append {escaped : Bool} (hn : n ≤ text.length) :
    quoteClose escaped (text ++ rest) = some n ↔ quoteClose escaped text = some n := by
  induction text generalizing escaped n with
  | nil =>
    obtain rfl : n = 0 := Nat.le_zero.mp hn
    exact iff_of_false quoteClose_ne_zero quoteClose_ne_zero
  | cons b text ih =>
    have hmore (e : Bool) : (quoteClose e (text ++ rest)).map (· + 1) = some n ↔
        (quoteClose e text).map (· + 1) = some n := by
      cases n with
      | zero => simp
      | succ n => simpa using ih (Nat.le_of_succ_le_succ hn)
    cases escaped with
    | true =>
      rw [List.cons_append, quoteClose, quoteClose]
      split
      · rfl
      · exact hmore false
    | false =>
      rw [List.cons_append, quoteClose, quoteClose]
      split
      · rfl
      · split
        · rfl
        · exact hmore (b == 92)

theorem stringLiteral_append (hn : n ≤ text.length) :
    stringLiteral (text ++ rest) = some n ↔ stringLiteral text = some n := by
  rw [stringLiteral_eq_some_iff, stringLiteral_eq_some_iff]
  constructor
  · rintro ⟨body, m, hbody, hm, rfl⟩
    match text, hn with
    | a :: more, hn =>
      rw [List.cons_append, List.cons.injEq] at hbody
      obtain ⟨rfl, rfl⟩ := hbody
      exact ⟨more, m, rfl, (quoteClose_append (by simpa using hn)).mp hm, rfl⟩
  · rintro ⟨body, m, rfl, hm, rfl⟩
    exact ⟨body ++ rest, m, rfl, (quoteClose_append (by simpa using hn)).mpr hm, rfl⟩

theorem lineBreak_append (hn : n ≤ text.length) :
    lineBreak (text ++ rest) = some n ↔ lineBreak text = some n := by
  rw [lineBreak_eq_some_iff, lineBreak_eq_some_iff]
  match text, hn with
  | [], hn => grind
  | [a], hn => grind
  | a :: b :: more, hn => simp

/-! ## Runs -/

/-- Taking bytes ends just behind a text if all of the text is taken and the next byte is not. -/
theorem length_takeWhile_append {p : UInt8 → Bool} :
    ((text ++ rest).takeWhile p).length = text.length ↔
      (∀ b ∈ text, p b = true) ∧ ∀ b ∈ rest.head?, p b = false := by
  induction text with
  | nil => cases rest with
    | nil => simp
    | cons b rest => cases hb : p b <;> simp [hb]
  | cons a text ih =>
    cases ha : p a with
    | true => simp [ha, ih]
    | false => simp [ha]

theorem run_whole_iff {p : UInt8 → Bool} :
    run p (text ++ rest) = some text.length ↔
      (text ≠ [] ∧ ∀ b ∈ text, p b = true) ∧ ∀ b ∈ rest.head?, p b = false := by
  rw [and_assoc, run_eq_some_iff, length_takeWhile_append, Ne, List.length_eq_zero_iff]

theorem word_whole_iff :
    word (text ++ rest) = some text.length ↔
      isWordText text = true ∧ ∀ b ∈ rest.head?, isWordByte b = false := by
  constructor
  · intro h
    cases text with
    | nil =>
      have := word_bounds h
      simp at this
    | cons b text =>
      rw [List.cons_append, word, Option.ite_none_right_eq_some, Option.some.injEq,
        List.length_cons, Nat.add_right_cancel_iff, length_takeWhile_append] at h
      rw [isWordText, Bool.and_eq_true, List.all_eq_true]
      exact ⟨⟨h.1, h.2.1⟩, h.2.2⟩
  · rintro ⟨htext, hrest⟩
    exact word_append htext hrest

theorem spelledWord_whole_iff {spelling : Bytes} :
    spelledWord spelling (text ++ rest) = some text.length ↔
      text = spelling ∧ ∀ b ∈ rest.head?, isWordByte b = false := by
  rw [spelledWord_eq_some_iff]
  constructor
  · rintro ⟨more, heq, hmore, hlength⟩
    obtain ⟨rfl, rfl⟩ := List.append_inj heq hlength
    exact ⟨rfl, hmore⟩
  · rintro ⟨rfl, hrest⟩
    exact ⟨rest, rfl, hrest, rfl⟩

end Append

/-! ## Rules before a blank -/

/-- What may follow a lexeme: nothing, or a text that begins with a blank. -/
def IsGap (gap : Bytes) : Prop := ∀ b ∈ gap.head?, b = 32

/-- Whether a match of some length is found depends on that much of a text only. -/
def Rule.IsLocal (r : Rule) : Prop :=
  ∀ ⦃text rest : Bytes⦄ ⦃n : Nat⦄, n ≤ text.length →
    (r.length? (text ++ rest) = some n ↔ r.length? text = some n)

/-- A match of all of a text is not changed by what follows: it is found without it, and it is found
before a blank. -/
structure Rule.IsWhole (r : Rule) (text : Bytes) : Prop where
  alone : ∀ rest, r.length? (text ++ rest) = some text.length → r.length? text = some text.length
  spaced : ∀ gap, IsGap gap → r.length? text = some text.length →
    r.length? (text ++ gap) = some text.length

theorem Rule.IsLocal.isWhole {r : Rule} (h : r.IsLocal) (text : Bytes) : r.IsWhole text :=
  ⟨fun _ => (h (Nat.le_refl _)).mp, fun _ _ => (h (Nat.le_refl _)).mpr⟩

section Gap

variable {text rest gap : Bytes} {r : Rule}

/-- Such are the rules that match all of a text when the byte behind it has not some property. -/
theorem Rule.isWhole_of_stop {P : Prop} {p : UInt8 → Bool} (hp : p 32 = false)
    (h : ∀ rest, r.length? (text ++ rest) = some text.length ↔
      P ∧ ∀ b ∈ rest.head?, p b = false) : r.IsWhole text := by
  have halone : r.length? text = some text.length ↔ P := by simpa using h []
  refine ⟨fun rest hrest => halone.mpr ((h rest).mp hrest).1, fun gap hgap ht => ?_⟩
  refine (h gap).mpr ⟨halone.mp ht, fun b hb => ?_⟩
  rw [hgap b hb, hp]

/-- A spelling without blanks that stands at the head of a text and a gap stands in the text. -/
theorem IsGap.prefix_of_append (h : IsGap gap) {spelling : Bytes} (hs : 32 ∉ spelling)
    (hp : spelling <+: text ++ gap) : spelling <+: text := by
  rcases List.prefix_or_prefix_of_prefix hp (List.prefix_append text gap) with hp' | ⟨more, rfl⟩
  · exact hp'
  · cases more with
    | nil => simp
    | cons b more =>
      rw [List.prefix_append_right_inj] at hp
      obtain ⟨behind, rfl⟩ := hp
      obtain rfl := h b rfl
      exact absurd (by simp) hs

/-- The rules of tokens that are not loose match all of a text whatever follows it. -/
theorem rules_whole (hr : r ∈ rules) (hk : r.kind.isLoose = false) (text : Bytes) :
    r.IsWhole text := by
  simp only [rules, List.mem_append, List.mem_cons, List.not_mem_nil, or_false, List.mem_map] at hr
  rcases hr with (hr | hr) | rfl
  · rcases hr with rfl | rfl | rfl | rfl | rfl | rfl | rfl | rfl | rfl | rfl
    · exact Rule.IsLocal.isWhole (fun _ _ _ => blockComment_append) text
    · cases hk
    · cases hk
    · cases hk
    · exact Rule.IsLocal.isWhole (fun _ _ _ => stringLiteral_append) text
    · exact Rule.isWhole_of_stop rfl fun _ => run_whole_iff
    · exact Rule.isWhole_of_stop rfl fun _ => spelledWord_whole_iff
    · exact Rule.isWhole_of_stop rfl fun _ => spelledWord_whole_iff
    · exact Rule.IsLocal.isWhole (fun _ _ _ => spelled_append) text
    · exact Rule.isWhole_of_stop rfl fun _ => word_whole_iff
  · obtain ⟨m, -, rfl⟩ := hr
    exact Rule.IsLocal.isWhole (fun _ _ _ => spelled_append) text
  · cases hk

/-! ## Rules that do not match -/

theorem Rule.IsLocal.none_alone (h : r.IsLocal) (hr : r ∈ rules)
    (hnone : r.length? (text ++ rest) = none) : r.length? text = none := by
  refine Option.eq_none_iff_forall_ne_some.mpr fun n hn => ?_
  rw [(h (rules_bounded hr hn).2).mpr hn] at hnone
  cases hnone

/-- An operator of letters is not matched where it was without what follows: a letter follows. -/
theorem spelledWord_none_alone {spelling : Bytes} {n : Nat}
    (h : spelledWord spelling (text ++ rest) = none) (hn : spelledWord spelling text = some n) :
    text = spelling ∧ ∃ b more, rest = b :: more ∧ isWordByte b = true := by
  obtain ⟨more, rfl, hmore, -⟩ := spelledWord_eq_some_iff.mp hn
  have hlonger : ¬ ∀ b ∈ (more ++ rest).head?, isWordByte b = false := fun hbyte => by
    rw [spelledWord_eq_some_iff.mpr ⟨more ++ rest, List.append_assoc _ _ _, hbyte, rfl⟩] at h
    cases h
  cases more with
  | cons => exact absurd hmore hlonger
  | nil =>
    cases rest with
    | nil => exact absurd nofun hlonger
    | cons b rest => exact ⟨List.append_nil _, b, rest, rfl, by simpa using hlonger⟩

theorem spelledWord_none_spaced {spelling : Bytes} (hgap : IsGap gap) (hs : 32 ∉ spelling)
    (h : spelledWord spelling text = none) : spelledWord spelling (text ++ gap) = none := by
  refine Option.eq_none_iff_forall_ne_some.mpr fun n hn => ?_
  obtain ⟨more, heq, hmore, -⟩ := spelledWord_eq_some_iff.mp hn
  obtain ⟨own, rfl⟩ : spelling <+: text := hgap.prefix_of_append hs ⟨more, heq.symm⟩
  rw [List.append_assoc, List.append_cancel_left_eq] at heq
  have hbyte : ∀ b ∈ own.head?, isWordByte b = false := by
    cases own with
    | nil => nofun
    | cons => simpa [← heq] using hmore
  rw [spelledWord_eq_some_iff.mpr ⟨own, rfl, hbyte, rfl⟩] at h
  cases h

/-- A comment that is not closed in a text may be closed behind it. -/
theorem blockComment_none_spaced (hgap : IsGap gap) (h : blockComment text = none) :
    blockComment (text ++ gap) = none ∨
      ∃ body, text = 47 :: 42 :: body ∧ commentClose body = none := by
  rw [or_iff_not_imp_left, ← Ne, Option.ne_none_iff_exists']
  rintro ⟨n, hn⟩
  obtain ⟨behind, m, heq, -⟩ := blockComment_eq_some_iff.mp hn
  obtain ⟨body, rfl⟩ : [47, 42] <+: text :=
    hgap.prefix_of_append (by decide) ⟨behind, heq.symm⟩
  refine ⟨body, rfl, Option.eq_none_iff_forall_ne_some.mpr fun k hk => ?_⟩
  exact nomatch h.symm.trans (blockComment_eq_some_iff.mpr ⟨body, k, rfl, hk, rfl⟩)

/-- A string literal that is not closed in a text may be closed behind it. -/
theorem stringLiteral_none_spaced (hgap : IsGap gap) (h : stringLiteral text = none) :
    stringLiteral (text ++ gap) = none ∨
      ∃ body, text = 34 :: body ∧ quoteClose false body = none := by
  rw [or_iff_not_imp_left, ← Ne, Option.ne_none_iff_exists']
  rintro ⟨n, hn⟩
  obtain ⟨behind, m, heq, -⟩ := stringLiteral_eq_some_iff.mp hn
  obtain ⟨body, rfl⟩ : [34] <+: text := hgap.prefix_of_append (by decide) ⟨behind, heq.symm⟩
  refine ⟨body, rfl, Option.eq_none_iff_forall_ne_some.mpr fun k hk => ?_⟩
  exact nomatch h.symm.trans (stringLiteral_eq_some_iff.mpr ⟨body, k, rfl, hk, rfl⟩)

/-- The operators that are spelled with letters. -/
def letterOperators : List Bytes := [utf8 "!in", utf8 "!is"]

/-- **What does not match a text does not match a beginning of it**, unless this is an operator of
letters and the text goes on with another letter. -/
theorem rules_none_alone (hr : r ∈ rules) (h : r.length? (text ++ rest) = none) :
    r.length? text = none ∨
      text ∈ letterOperators ∧ ∃ b more, rest = b :: more ∧ isWordByte b = true := by
  have hletters (spelling : Bytes) (hs : spelling ∈ letterOperators)
      (h : spelledWord spelling (text ++ rest) = none) : spelledWord spelling text = none ∨
        text ∈ letterOperators ∧ ∃ b more, rest = b :: more ∧ isWordByte b = true := by
    cases hn : spelledWord spelling text with
    | none => exact .inl rfl
    | some n =>
      obtain ⟨rfl, hmore⟩ := spelledWord_none_alone h hn
      exact .inr ⟨hs, hmore⟩
  have hmem := hr
  simp only [rules, List.mem_append, List.mem_cons, List.not_mem_nil, or_false, List.mem_map] at hr
  rcases hr with (hr | hr) | rfl
  · rcases hr with rfl | rfl | rfl | rfl | rfl | rfl | rfl | rfl | rfl | rfl
    · exact .inl (Rule.IsLocal.none_alone (fun _ _ _ => blockComment_append) hmem h)
    · refine .inl (lineComment_eq_none_iff.mpr fun hp => ?_)
      exact lineComment_eq_none_iff.mp h (hp.trans (List.prefix_append _ _))
    · exact .inl (Rule.IsLocal.none_alone (fun _ _ _ => lineBreak_append) hmem h)
    · cases text with
      | nil => exact .inl rfl
      | cons b text => exact .inl (run_eq_none_iff.mpr (run_eq_none_iff.mp h))
    · exact .inl (Rule.IsLocal.none_alone (fun _ _ _ => stringLiteral_append) hmem h)
    · cases text with
      | nil => exact .inl rfl
      | cons b text => exact .inl (run_eq_none_iff.mpr (run_eq_none_iff.mp h))
    · exact hletters _ (by decide) h
    · exact hletters _ (by decide) h
    · exact .inl (Rule.IsLocal.none_alone (fun _ _ _ => spelled_append) hmem h)
    · cases text with
      | nil => exact .inl rfl
      | cons b text => exact .inl (word_eq_none_iff.mpr (word_eq_none_iff.mp h))
  · obtain ⟨m, -, rfl⟩ := hr
    exact .inl (Rule.IsLocal.none_alone (fun _ _ _ => spelled_append) hmem h)
  · cases text with
    | nil => exact .inl rfl
    | cons => cases h

/-- **What does not match a text does not match it before a gap**, unless the text begins a comment
or a string literal that it does not close. -/
theorem rules_none_spaced (hr : r ∈ rules) (hgap : IsGap gap) (ht : text ≠ [])
    (h : r.length? text = none) :
    r.length? (text ++ gap) = none ∨
      (∃ body, text = 47 :: 42 :: body ∧ commentClose body = none) ∨
        ∃ body, text = 34 :: body ∧ quoteClose false body = none := by
  obtain ⟨b, rest, rfl⟩ := List.exists_cons_of_ne_nil ht
  have hspelled (spelling : Bytes) (hs : 32 ∉ spelling) (h : spelled spelling (b :: rest) = none) :
      spelled spelling (b :: rest ++ gap) = none :=
    spelled_eq_none_iff.mpr fun hp => spelled_eq_none_iff.mp h (hgap.prefix_of_append hs hp)
  simp only [rules, List.mem_append, List.mem_cons, List.not_mem_nil, or_false, List.mem_map] at hr
  rcases hr with (hr | hr) | rfl
  · rcases hr with rfl | rfl | rfl | rfl | rfl | rfl | rfl | rfl | rfl | rfl
    · exact (blockComment_none_spaced hgap h).imp_right .inl
    · refine .inl (lineComment_eq_none_iff.mpr fun hp => ?_)
      exact lineComment_eq_none_iff.mp h (hgap.prefix_of_append (by decide) hp)
    · obtain ⟨hone, htwo⟩ := lineBreak_eq_none_iff.mp h
      refine .inl (lineBreak_eq_none_iff.mpr ⟨fun hp => ?_, fun hp => ?_⟩)
      · exact hone (hgap.prefix_of_append (by decide) hp)
      · exact htwo (hgap.prefix_of_append (by decide) hp)
    · exact .inl (run_eq_none_iff.mpr (run_eq_none_iff.mp h))
    · exact (stringLiteral_none_spaced hgap h).imp_right .inr
    · exact .inl (run_eq_none_iff.mpr (run_eq_none_iff.mp h))
    · exact .inl (spelledWord_none_spaced hgap (by decide) h)
    · exact .inl (spelledWord_none_spaced hgap (by decide) h)
    · exact .inl (hspelled _ (by decide) h)
    · exact .inl (word_eq_none_iff.mpr (word_eq_none_iff.mp h))
  · obtain ⟨m, -, rfl⟩ := hr
    exact .inl (hspelled _ (by cases m <;> decide) h)
  · cases h

end Gap

/-! ## The first token of two texts -/

theorem firstMatch_congr {t u : Bytes} {rs : List Rule} {kind : Kind} {n : Nat}
    (h : firstMatch t rs = (kind, n)) (hnone : ∀ r ∈ rs, r.length? t = none → r.length? u = none)
    (hsome : ∀ r ∈ rs, r.kind = kind → r.length? t = some n → r.length? u = some n) :
    firstMatch u rs = (kind, n) := by
  induction rs with
  | nil => exact h
  | cons r rest ih =>
    obtain ⟨hr, hrest⟩ := List.forall_mem_cons.mp hnone
    cases hlength : r.length? t with
    | none =>
      rw [firstMatch_skip hlength] at h
      rw [firstMatch_skip (hr hlength)]
      exact ih h hrest fun r hr => hsome r (List.mem_cons_of_mem _ hr)
    | some m =>
      simp only [firstMatch, hlength] at h
      obtain ⟨rfl, rfl⟩ := Prod.mk.inj h
      simp only [firstMatch, hsome r List.mem_cons_self rfl hlength]

/-- **Two texts with the same first token.** What does not match the first text does not match the
second, and the rule that makes the first token matches both in the same way. -/
theorem head_congr {t u : Bytes} {kind : Kind} {n : Nat} (h : head t = (kind, n))
    (hk : kind.isLoose = false) (htake : u.take n = t.take n)
    (hnone : ∀ r ∈ rules, r.length? t = none → r.length? u = none)
    (hsome : ∀ r ∈ rules, r.kind.isLoose = false → r.length? t = some n → r.length? u = some n) :
    head u = (kind, n) := by
  obtain ⟨first, size, hfirst⟩ : ∃ first size, firstMatch t rules = (first, size) := ⟨_, _, rfl⟩
  rw [head_of_firstMatch hfirst] at h
  obtain ⟨hkind, rfl⟩ := Prod.mk.inj h
  have hloose : first.isLoose = false := by
    cases first with
    | identifier => rfl
    | _ => exact (congrArg Kind.isLoose hkind).trans hk
  have hsecond : firstMatch u rules = (first, size) :=
    firstMatch_congr hfirst hnone fun r hr hrk => hsome r hr (hrk ▸ hloose)
  rw [head_of_firstMatch hsecond, htake, hkind]

/-! ## Lexemes -/

/-- A comment that is not closed begins with the mark of a division. -/
theorem head_of_openComment {body : Bytes} (h : commentClose body = none) :
    head (47 :: 42 :: body) = (.mark .divide, 1) := by
  refine head_of_longer [⟨.blockComment, blockComment⟩, ⟨.lineComment, lineComment⟩] rfl ?_ rfl
  refine List.forall_mem_cons.mpr ⟨?_, List.forall_mem_singleton.mpr rfl⟩
  simp only [blockComment, h, Option.map_none]

/-- The quote of a string literal that is not closed is not recognised. -/
theorem head_of_openQuote {body : Bytes} (h : quoteClose false body = none) :
    (head (34 :: body)).1 = .error := by
  have hfirst : firstMatch (34 :: body) rules =
      firstMatch (34 :: body) [⟨.stringLiteral, stringLiteral⟩, ⟨.error, character⟩] := rfl
  rw [head, hfirst]
  simp only [firstMatch, stringLiteral, h, Option.map_none]
  rfl

/-- An operator of letters before another letter begins with the mark of a negation. -/
theorem head_of_longWord {text rest : Bytes} (ht : text ∈ letterOperators) {b : UInt8}
    (hb : isWordByte b = true) : head (text ++ b :: rest) = (.mark .not, 1) := by
  have hnone : spelledWord text (text ++ b :: rest) = none := by
    refine Option.eq_none_iff_forall_ne_some.mpr fun n hn => ?_
    obtain ⟨more, heq, hmore, -⟩ := spelledWord_eq_some_iff.mp hn
    obtain rfl := List.append_cancel_left heq
    exact Bool.false_ne_true ((hmore b rfl).symm.trans hb)
  simp only [letterOperators, List.mem_cons, List.not_mem_nil, or_false] at ht
  rcases ht with rfl | rfl
  · exact head_of_longer [⟨.keyword .notIn, spelledWord (utf8 "!in")⟩] rfl
      (List.forall_mem_singleton.mpr hnone) rfl
  · exact head_of_longer [⟨.keyword .notIs, spelledWord (utf8 "!is")⟩] rfl
      (List.forall_mem_singleton.mpr hnone) rfl

variable {text : Bytes} {kind : Kind}

/-- **A lexeme is lexed as a whole before a blank.** -/
theorem head_spaced {gap : Bytes} (h : head text = (kind, text.length)) (ht : text ≠ [])
    (hk : kind.isLoose = false) (hgap : IsGap gap) :
    head (text ++ gap) = (kind, text.length) := by
  refine head_congr h hk (by rw [List.take_left, List.take_length]) (fun r hr hnone => ?_)
    fun r hr hrk => (rules_whole hr hrk text).spaced gap hgap
  rcases rules_none_spaced hr hgap ht hnone with h' | ⟨body, rfl, hbody⟩ | ⟨body, rfl, hbody⟩
  · exact h'
  · rw [head_of_openComment hbody] at h
    simp at h
  · have herror := head_of_openQuote hbody
    rw [h] at herror
    subst herror
    cases hk

/-- **A token is a lexeme**, whatever follows it. -/
theorem head_alone {rest : Bytes} (h : head (text ++ rest) = (kind, text.length))
    (hk : kind.isLoose = false) : head text = (kind, text.length) := by
  refine head_congr h hk (by rw [List.take_left, List.take_length]) (fun r hr hnone => ?_)
    fun r hr hrk => (rules_whole hr hrk text).alone rest
  rcases rules_none_alone hr hnone with h' | ⟨ht, b, more, rfl, hb⟩
  · exact h'
  · rw [head_of_longWord ht hb] at h
    have hlong : ∀ word ∈ letterOperators, word.length ≠ 1 := by decide
    exact absurd (Prod.mk.inj h).2.symm (hlong text ht)

end Lexer

/-- **A lexeme**: a text that is lexed as one token when it stands alone, of a kind that is not
loose. -/
structure Piece.IsLexeme (p : Piece) : Prop where
  alone : ∃ t final, lex p.text = [t, final] ∧ t.Of p ∧ final.kind = .eof
  solid : p.kind.isLoose = false

/-- The tokens of a piece without anything behind it. -/
theorem tokensFrom_alone (place : Place) {p : Piece} (hne : p.text ≠ [])
    (hhead : Lexer.head p.text = (p.kind, p.text.length)) :
    ∃ t : Token, t.Of p ∧
      Lexer.tokensFrom 0 place p.text = [t, Lexer.endToken (place.after p.text)] := by
  have hsplit : Lexer.head (p.text ++ []) = (p.kind, p.text.length) := by rwa [List.append_nil]
  obtain ⟨t, ht, hfirst⟩ := tokensFrom_piece place hne hsplit
  rw [List.append_nil] at hfirst
  exact ⟨t, ht, hfirst⟩

theorem Piece.isLexeme_iff {p : Piece} :
    p.IsLexeme ↔
      p.text ≠ [] ∧ Lexer.head p.text = (p.kind, p.text.length) ∧ p.kind.isLoose = false := by
  constructor
  · rintro ⟨⟨t, final, hlex, ⟨hkind, htext⟩, -⟩, hsolid⟩
    have hlexed := lex_lexed p.text
    rw [hlex] at hlexed
    generalize hp : p.text = text at hlexed
    cases hlexed with
    | @token _ rest _ _ hne hhead =>
      have hrest : rest = [] := List.append_right_eq_self.mp (hp ▸ htext).symm
      rw [hrest, List.append_nil] at hhead ⊢
      exact ⟨hne, hkind ▸ hhead, hsolid⟩
  · rintro ⟨hne, hhead, hsolid⟩
    obtain ⟨t, ht, hlex⟩ := tokensFrom_alone Place.start hne hhead
    exact ⟨⟨t, _, hlex, ht, rfl⟩, hsolid⟩

/-- A lexeme begins with no blank. -/
theorem Piece.IsLexeme.begins {p : Piece} (h : p.IsLexeme) (rest : Bytes) :
    ∀ b ∈ (p.text ++ rest).head?, Kind.whitespace.allows b = true := by
  obtain ⟨hne, hhead, hsolid⟩ := isLexeme_iff.mp h
  have hink : Lexer.isInk (Lexer.head p.text).1 = true := by
    rw [hhead]
    revert hsolid
    cases p.kind <;> simp [Kind.isLoose, Lexer.isInk]
  obtain ⟨b, more, htext, hb⟩ := Lexer.head_visible hne hink
  intro c hc
  rw [htext, List.cons_append, List.head?_cons, Option.mem_some_iff] at hc
  subst hc
  rw [Kind.allows, Bool.not_eq_true']
  simp only [Lexer.isBlank, Bool.or_eq_false_iff, beq_eq_false_iff_ne]
  refine ⟨⟨⟨?_, ?_⟩, ?_⟩, ?_⟩ <;> rintro rfl <;> cases hb

/-- **Lexemes with blanks between them** are the tokens of the text that they make. -/
theorem tokensFrom_lexemes (place : Place) {ps : List Piece} (h : ∀ p ∈ ps, p.IsLexeme) :
    ∃ tokens final,
      Lexer.tokensFrom 0 place (Bytes.join (utf8 " ") (ps.map Piece.text)) = tokens ++ [final] ∧
        List.Forall₂ Token.Of tokens (ps.intersperse .blank) ∧ final.kind = .eof := by
  induction ps generalizing place with
  | nil => exact ⟨[], Lexer.endToken place, rfl, .nil, rfl⟩
  | cons p ps ih =>
    obtain ⟨hp, hps⟩ := List.forall_mem_cons.mp h
    obtain ⟨hne, hhead, hsolid⟩ := Piece.isLexeme_iff.mp hp
    cases ps with
    | nil =>
      obtain ⟨t, ht, hlex⟩ := tokensFrom_alone place hne hhead
      exact ⟨[t], _, hlex, .cons ht .nil, rfl⟩
    | cons q rest =>
      obtain ⟨behind, hbehind⟩ : ∃ behind,
          Bytes.join (utf8 " ") ((q :: rest).map Piece.text) = q.text ++ behind := by
        cases rest with
        | nil => exact ⟨[], (List.append_nil _).symm⟩
        | cons => exact ⟨_, List.append_assoc _ _ _⟩
      have hgap : Lexer.IsGap (utf8 " " ++ (q.text ++ behind)) := fun b hb =>
        (Option.some.inj hb).symm
      obtain ⟨t, ht, hfirst⟩ :=
        tokensFrom_piece place hne (Lexer.head_spaced hhead hne hsolid hgap)
      obtain ⟨hblank, hheadBlank⟩ :=
        Piece.Proper.blank.head ((List.forall_mem_cons.mp hps).1.begins behind)
      obtain ⟨u, hu, hsecond⟩ := tokensFrom_piece (place.after p.text) hblank hheadBlank
      obtain ⟨tokens, final, htokens, hof, hfinal⟩ :=
        ih ((place.after p.text).after (utf8 " ")) hps
      refine ⟨t :: u :: tokens, final, ?_, .cons ht (.cons hu hof), hfinal⟩
      rw [hbehind] at htokens
      have hjoin : Bytes.join (utf8 " ") ((p :: q :: rest).map Piece.text) =
          p.text ++ (utf8 " " ++ (q.text ++ behind)) := by
        rw [← hbehind, ← List.append_assoc]
        rfl
      rw [hjoin, hfirst, show utf8 " " = Piece.blank.text from rfl, hsecond]
      exact congrArg (t :: u :: ·) htokens

/-- **Spacing tokens apart preserves them.** The text of some lexemes with a blank between each two
is lexed as these lexemes and blanks, and an end of input. Every token of a source is a lexeme, the
end of input and loose tokens apart. -/
theorem lexemes_spaced :
    (∀ lexemes : List Piece, (∀ p ∈ lexemes, p.IsLexeme) →
      ∃ tokens final, lex (Bytes.join (utf8 " ") (lexemes.map Piece.text)) = tokens ++ [final] ∧
        List.Forall₂ Token.Of tokens (lexemes.intersperse .blank) ∧ final.kind = .eof) ∧
    ∀ source, ∀ t ∈ lex source, t.kind ≠ .eof → t.kind.isLoose = false →
      (Piece.mk t.kind t.text).IsLexeme := by
  refine ⟨fun _ h => tokensFrom_lexemes Place.start h, fun source t ht heof hsolid => ?_⟩
  obtain ⟨before, behind, -, ⟨hkind, -, -⟩ | ⟨hne, hhead⟩⟩ := mem_lex ht
  · contradiction
  · exact Piece.isLexeme_iff.mpr ⟨hne, Lexer.head_alone hhead hsolid, hsolid⟩

/-- Lexemes that would make other tokens without the blanks, and the first token of a text that
begins like an operator of letters. -/
theorem lexemes_spaced_operators :
    let lexemes : List Piece :=
      [⟨.mark .not, utf8 "!"⟩, ⟨.keyword .in_, utf8 "in"⟩, ⟨.keyword .as, utf8 "as"⟩,
       ⟨.mark .nullable, utf8 "?"⟩, ⟨.mark .dot, utf8 "."⟩, ⟨.mark .divide, utf8 "/"⟩,
       ⟨.mark .multiply, utf8 "*"⟩, ⟨.stringLiteral, utf8 "\"*/\""⟩, ⟨.keyword .notIn, utf8 "!in"⟩,
       ⟨.identifier, utf8 "x"⟩]
    let negation : Token := ⟨.mark .not, utf8 "!", 0, 1, 1, 0⟩
    ((∀ p ∈ lexemes, p.IsLexeme) ∧
      ∃ tokens final, lex (Bytes.join (utf8 " ") (lexemes.map Piece.text)) = tokens ++ [final] ∧
        List.Forall₂ Token.Of tokens (lexemes.intersperse .blank) ∧ final.kind = .eof) ∧
    negation ∈ lex (utf8 "!inx") ∧ negation.kind ≠ .eof ∧ negation.kind.isLoose = false ∧
      (Piece.mk (.mark .not) (utf8 "!")).IsLexeme := by
  intro lexemes negation
  have hlexemes : ∀ p ∈ lexemes, p.IsLexeme := by
    have hheads : ∀ p ∈ lexemes, p.text ≠ [] ∧
        Lexer.head p.text = (p.kind, p.text.length) ∧ p.kind.isLoose = false := by
      decide +kernel
    exact fun p hp => Piece.isLexeme_iff.mpr (hheads p hp)
  have hmem : negation ∈ lex (utf8 "!inx") := by decide +kernel
  exact ⟨⟨hlexemes, lexemes_spaced.1 lexemes hlexemes⟩, hmem, nofun, rfl,
    lexemes_spaced.2 (utf8 "!inx") negation hmem nofun rfl⟩

end Yurin
