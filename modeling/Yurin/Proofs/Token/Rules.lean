import Yurin.Token.Lexer

/-!
# What the rules of the lexer match

Each scanner of the lexer is described once, by the texts that it matches and the length of the
match (`spelled_eq_some_iff` and so on). The searches for the end of a comment and of a string
literal are recursive; what they find is a split of the text (`commentClose_splits`,
`quoteClose_splits`). All that is said about matches elsewhere comes from these descriptions.

Results:
* `rules_bounded`: a rule matches at least one byte and not more than there are.
* `rules_visible`: the rules of tokens that are neither blank nor unrecognised match where a visible
  character stands.
-/

namespace Yurin

namespace Lexer

section Matches

variable {text : Bytes} {n : Nat}

/-! ## Spellings and runs -/

theorem spelled_eq_some_iff {spelling : Bytes} :
    spelled spelling text = some n ↔ spelling <+: text ∧ n = spelling.length := by
  rw [spelled, Option.ite_none_right_eq_some, List.isPrefixOf_iff_prefix, Option.some.injEq,
    eq_comm (a := n)]

theorem spelled_eq_none_iff {spelling : Bytes} :
    spelled spelling text = none ↔ ¬ spelling <+: text := by
  simp [spelled, List.isPrefixOf_iff_prefix]

theorem spelledWord_eq_some_iff {spelling : Bytes} :
    spelledWord spelling text = some n ↔
      ∃ more, text = spelling ++ more ∧ (∀ b ∈ more.head?, isWordByte b = false) ∧
        n = spelling.length := by
  unfold spelledWord Bytes.dropHead?
  by_cases hp : spelling <+: text
  · obtain ⟨more, rfl⟩ := hp
    rw [if_pos (List.isPrefixOf_iff_prefix.mpr (List.prefix_append _ _)), List.drop_left]
    simp only [List.append_cancel_left_eq, exists_eq_left']
    cases more with
    | nil => simp [eq_comm (a := n)]
    | cons b more => simp [eq_comm (a := n)]
  · rw [if_neg (fun h => hp (List.isPrefixOf_iff_prefix.mp h))]
    refine iff_of_false nofun ?_
    rintro ⟨more, rfl, -⟩
    exact hp (List.prefix_append _ _)

/-- A word that no further word byte follows is spelled. -/
theorem spelled_of_spelledWord {spelling : Bytes} (h : spelledWord spelling text = some n) :
    spelled spelling text = some n := by
  obtain ⟨more, rfl, -, hn⟩ := spelledWord_eq_some_iff.mp h
  exact spelled_eq_some_iff.mpr ⟨List.prefix_append _ _, hn⟩

theorem run_eq_some_iff {p : UInt8 → Bool} :
    run p text = some n ↔ n ≠ 0 ∧ (text.takeWhile p).length = n := by
  unfold run
  split <;> grind

theorem run_eq_none_iff {p : UInt8 → Bool} {b : UInt8} :
    run p (b :: text) = none ↔ p b = false := by
  cases hb : p b <;> simp [run, hb]

theorem word_eq_some_iff :
    word text = some n ↔ ∃ b rest, text = b :: rest ∧ (isLetter b || b == 95) = true ∧
      n = (rest.takeWhile isWordByte).length + 1 := by
  cases text with
  | nil => exact iff_of_false nofun nofun
  | cons b rest =>
    rw [word, Option.ite_none_right_eq_some, Option.some.injEq]
    constructor
    · rintro ⟨hb, rfl⟩
      exact ⟨b, rest, rfl, hb, rfl⟩
    · rintro ⟨_, _, ⟨rfl, rfl⟩, hb, rfl⟩
      exact ⟨hb, rfl⟩

theorem word_eq_none_iff {b : UInt8} :
    word (b :: text) = none ↔ (isLetter b || b == 95) = false := by
  simp [word]

/-! ## Line breaks and comments -/

theorem lineBreak_eq_some_iff :
    lineBreak text = some n ↔
      n = 1 ∧ (∃ more, text = 10 :: more) ∨ n = 2 ∧ ∃ more, text = 13 :: 10 :: more := by
  unfold lineBreak
  split <;> grind

theorem lineBreak_eq_none_iff :
    lineBreak text = none ↔ ¬ [10] <+: text ∧ ¬ [13, 10] <+: text := by
  unfold lineBreak
  split
  · simp
  · simp
  · rename_i hone htwo
    refine iff_of_true rfl ⟨?_, ?_⟩
    · rintro ⟨more, rfl⟩
      exact hone more rfl
    · rintro ⟨more, rfl⟩
      exact htwo more rfl

theorem lineComment_eq_some_iff :
    lineComment text = some n ↔
      ∃ body, text = 47 :: 47 :: body ∧ n = (body.takeWhile (· != lineFeed)).length + 2 := by
  unfold lineComment
  split <;> grind

theorem lineComment_eq_none_iff : lineComment text = none ↔ ¬ [47, 47] <+: text := by
  unfold lineComment
  split
  · simp
  · rename_i hnot
    refine iff_of_true rfl ?_
    rintro ⟨more, rfl⟩
    exact hnot more rfl

/-- A comment is closed behind what stands before its first end. -/
theorem commentClose_splits (h : commentClose text = some n) :
    ∃ body behind, text = body ++ 42 :: 47 :: behind ∧ n = body.length + 2 := by
  induction text generalizing n with
  | nil => cases h
  | cons a rest ih =>
    cases rest with
    | nil => cases h
    | cons b rest =>
      unfold commentClose at h
      split at h
      · rename_i hab
        obtain ⟨rfl, rfl⟩ := hab
        cases h
        exact ⟨[], rest, rfl, rfl⟩
      · obtain ⟨m, hm, rfl⟩ := Option.map_eq_some_iff.mp h
        obtain ⟨body, behind, hsplit, rfl⟩ := ih hm
        exact ⟨a :: body, behind, by rw [hsplit, List.cons_append], rfl⟩

theorem blockComment_eq_some_iff :
    blockComment text = some n ↔
      ∃ body m, text = 47 :: 42 :: body ∧ commentClose body = some m ∧ n = m + 2 := by
  constructor
  · intro h
    unfold blockComment at h
    split at h
    · rename_i body
      obtain ⟨m, hm, rfl⟩ := Option.map_eq_some_iff.mp h
      exact ⟨body, m, rfl, hm, rfl⟩
    · cases h
  · rintro ⟨body, m, rfl, hm, rfl⟩
    rw [blockComment, hm, Option.map_some]

theorem blockComment_none (h : ¬ [47, 42] <+: text) : blockComment text = none := by
  refine Option.eq_none_iff_forall_ne_some.mpr fun n hn => h ?_
  obtain ⟨body, _, rfl, -⟩ := blockComment_eq_some_iff.mp hn
  exact List.prefix_append [47, 42] body

/-! ## String literals -/

/-- A string literal is closed behind what stands before the closing quote. -/
theorem quoteClose_splits {escaped : Bool} (h : quoteClose escaped text = some n) :
    ∃ body behind, text = body ++ 34 :: behind ∧ n = body.length + 1 := by
  induction text generalizing escaped n with
  | nil => cases escaped <;> cases h
  | cons b rest ih =>
    have hmore {e : Bool} (h : (quoteClose e rest).map (· + 1) = some n) :
        ∃ body behind, b :: rest = body ++ 34 :: behind ∧ n = body.length + 1 := by
      obtain ⟨m, hm, rfl⟩ := Option.map_eq_some_iff.mp h
      obtain ⟨body, behind, rfl, rfl⟩ := ih hm
      exact ⟨b :: body, behind, rfl, rfl⟩
    cases escaped with
    | true =>
      unfold quoteClose at h
      split at h
      · cases h
      · exact hmore h
    | false =>
      unfold quoteClose at h
      split at h
      · rename_i hb
        subst hb
        cases h
        exact ⟨[], rest, rfl, rfl⟩
      · split at h
        · cases h
        · exact hmore h

theorem stringLiteral_eq_some_iff :
    stringLiteral text = some n ↔
      ∃ body m, text = 34 :: body ∧ quoteClose false body = some m ∧ n = m + 1 := by
  constructor
  · intro h
    unfold stringLiteral at h
    split at h
    · rename_i body
      obtain ⟨m, hm, rfl⟩ := Option.map_eq_some_iff.mp h
      exact ⟨body, m, rfl, hm, rfl⟩
    · cases h
  · rintro ⟨body, m, rfl, hm, rfl⟩
    rw [stringLiteral, hm, Option.map_some]

theorem stringLiteral_none (h : ¬ [34] <+: text) : stringLiteral text = none := by
  refine Option.eq_none_iff_forall_ne_some.mpr fun n hn => h ?_
  obtain ⟨body, _, rfl, -⟩ := stringLiteral_eq_some_iff.mp hn
  exact List.prefix_append [34] body

/-! ## Characters -/

theorem character_eq_some_iff :
    character text = some n ↔ ∃ b rest, text = b :: rest ∧ n = (decodeRune b rest).2 := by
  cases text with
  | nil => exact iff_of_false nofun nofun
  | cons b rest =>
    rw [character, Option.some.injEq]
    constructor
    · rintro rfl
      exact ⟨b, rest, rfl, rfl⟩
    · rintro ⟨_, _, ⟨rfl, rfl⟩, rfl⟩
      rfl

end Matches

end Lexer

/-- A character takes at least one byte and not more than there are. -/
theorem decodeRune_bounds (b : UInt8) (rest : Bytes) :
    0 < (decodeRune b rest).2 ∧ (decodeRune b rest).2 ≤ rest.length + 1 := by
  unfold decodeRune
  split
  · simp
  split
  · rename_i h
    cases rest with
    | nil => cases h
    | cons => simp
  split
  · rename_i h
    match rest, h with
    | _ :: _ :: _, _ => simp
  split
  · rename_i h
    match rest, h with
    | _ :: _ :: _ :: _, _ => simp
  · simp

namespace Lexer

/-! ## Lengths of matches -/

section Bounds

variable {text : Bytes} {n : Nat}

/-- A rule matches a part of the text that is not empty. -/
def Rule.Bounded (r : Rule) : Prop :=
  ∀ ⦃text : Bytes⦄ ⦃n : Nat⦄, r.length? text = some n → 0 < n ∧ n ≤ text.length

theorem spelled_bounds {spelling : Bytes} (hs : spelling ≠ [])
    (h : spelled spelling text = some n) : 0 < n ∧ n ≤ text.length := by
  obtain ⟨hbegins, rfl⟩ := spelled_eq_some_iff.mp h
  exact ⟨List.length_pos_iff.mpr hs, hbegins.length_le⟩

theorem run_bounds {p : UInt8 → Bool} (h : run p text = some n) : 0 < n ∧ n ≤ text.length := by
  obtain ⟨hne, rfl⟩ := run_eq_some_iff.mp h
  exact ⟨Nat.pos_of_ne_zero hne, (List.takeWhile_sublist p).length_le⟩

theorem blockComment_bounds (h : blockComment text = some n) : 0 < n ∧ n ≤ text.length := by
  obtain ⟨_, m, rfl, hclose, rfl⟩ := blockComment_eq_some_iff.mp h
  obtain ⟨body, behind, rfl, rfl⟩ := commentClose_splits hclose
  simp only [List.length_cons, List.length_append]
  omega

theorem lineComment_bounds (h : lineComment text = some n) : 0 < n ∧ n ≤ text.length := by
  obtain ⟨body, rfl, rfl⟩ := lineComment_eq_some_iff.mp h
  have hle := (List.takeWhile_sublist (· != lineFeed) (l := body)).length_le
  simp only [List.length_cons]
  omega

theorem lineBreak_bounds (h : lineBreak text = some n) : 0 < n ∧ n ≤ text.length := by
  rcases lineBreak_eq_some_iff.mp h with ⟨rfl, more, rfl⟩ | ⟨rfl, more, rfl⟩ <;> simp

theorem stringLiteral_bounds (h : stringLiteral text = some n) : 0 < n ∧ n ≤ text.length := by
  obtain ⟨_, m, rfl, hclose, rfl⟩ := stringLiteral_eq_some_iff.mp h
  obtain ⟨body, behind, rfl, rfl⟩ := quoteClose_splits hclose
  simp only [List.length_cons, List.length_append]
  omega

theorem word_bounds (h : word text = some n) : 0 < n ∧ n ≤ text.length := by
  obtain ⟨b, rest, rfl, -, rfl⟩ := word_eq_some_iff.mp h
  have hle := (List.takeWhile_sublist isWordByte (l := rest)).length_le
  simp only [List.length_cons]
  omega

theorem character_bounds (h : character text = some n) : 0 < n ∧ n ≤ text.length := by
  obtain ⟨b, rest, rfl, rfl⟩ := character_eq_some_iff.mp h
  exact decodeRune_bounds b rest

end Bounds

theorem ofMark_bounded (m : Mark) : (ofMark m).Bounded := fun _ _ h =>
  spelled_bounds (by cases m <;> decide) h

theorem rules_bounded {r : Rule} (h : r ∈ rules) : r.Bounded := by
  simp only [rules, List.mem_append, List.mem_cons, List.not_mem_nil, or_false, List.mem_map] at h
  rcases h with (h | h) | rfl
  · rcases h with rfl | rfl | rfl | rfl | rfl | rfl | rfl | rfl | rfl | rfl
    · exact fun _ _ => blockComment_bounds
    · exact fun _ _ => lineComment_bounds
    · exact fun _ _ => lineBreak_bounds
    · exact fun _ _ => run_bounds
    · exact fun _ _ => stringLiteral_bounds
    · exact fun _ _ => run_bounds
    · exact fun _ _ h => spelled_bounds (by decide) (spelled_of_spelledWord h)
    · exact fun _ _ h => spelled_bounds (by decide) (spelled_of_spelledWord h)
    · exact fun _ _ => spelled_bounds (by decide)
    · exact fun _ _ => word_bounds
  · obtain ⟨m, -, rfl⟩ := h
    exact ofMark_bounded m
  · exact fun _ _ => character_bounds

/-! ## First bytes -/

/-- The visible ASCII characters. -/
def isVisible (b : UInt8) : Bool := 33 ≤ b && b ≤ 126

/-- A text that begins with a visible character. -/
def BeginsVisibly (text : Bytes) : Prop := ∃ b rest, text = b :: rest ∧ isVisible b = true

section Visible

variable {text : Bytes} {n : Nat}

theorem spelled_visible {b : UInt8} {more : Bytes} (hb : isVisible b = true)
    (h : spelled (b :: more) text = some n) : BeginsVisibly text := by
  obtain ⟨⟨rest, rfl⟩, -⟩ := spelled_eq_some_iff.mp h
  exact ⟨b, more ++ rest, rfl, hb⟩

theorem isDigit_visible {b : UInt8} (h : isDigit b = true) : isVisible b = true := by
  simp only [isDigit, isVisible, Bool.and_eq_true, decide_eq_true_eq, UInt8.le_iff_toNat_le] at h ⊢
  exact ⟨Nat.le_trans (by decide) h.1, Nat.le_trans h.2 (by decide)⟩

theorem run_digits_visible (h : run isDigit text = some n) : BeginsVisibly text := by
  cases text with
  | nil => cases h
  | cons b rest =>
    cases hb : isDigit b with
    | true => exact ⟨b, rest, rfl, isDigit_visible hb⟩
    | false =>
      rw [run_eq_none_iff.mpr hb] at h
      cases h

theorem word_visible (h : word text = some n) : BeginsVisibly text := by
  obtain ⟨b, rest, rfl, hb, -⟩ := word_eq_some_iff.mp h
  refine ⟨b, rest, rfl, ?_⟩
  simp only [isLetter, Bool.or_eq_true, Bool.and_eq_true, decide_eq_true_eq, beq_iff_eq,
    UInt8.le_iff_toNat_le] at hb
  simp only [isVisible, Bool.and_eq_true, decide_eq_true_eq, UInt8.le_iff_toNat_le]
  rcases hb with (hb | hb) | rfl
  · exact ⟨Nat.le_trans (by decide) hb.1, Nat.le_trans hb.2 (by decide)⟩
  · exact ⟨Nat.le_trans (by decide) hb.1, Nat.le_trans hb.2 (by decide)⟩
  · decide

end Visible

/-- The kinds of tokens that begin with a visible character. -/
def isInk : Kind → Bool
  | .whitespace | .newline | .error => false
  | _ => true

/-- Rules for such tokens match where a visible character stands. -/
theorem rules_visible {r : Rule} (hr : r ∈ rules) (hk : isInk r.kind = true) {text : Bytes}
    {n : Nat} (h : r.length? text = some n) : BeginsVisibly text := by
  simp only [rules, List.mem_append, List.mem_cons, List.not_mem_nil, or_false, List.mem_map] at hr
  rcases hr with (hr | hr) | rfl
  · rcases hr with rfl | rfl | rfl | rfl | rfl | rfl | rfl | rfl | rfl | rfl
    · obtain ⟨_, _, rfl, -⟩ := blockComment_eq_some_iff.mp h
      exact ⟨_, _, rfl, by decide⟩
    · obtain ⟨_, rfl, -⟩ := lineComment_eq_some_iff.mp h
      exact ⟨_, _, rfl, by decide⟩
    · cases hk
    · cases hk
    · obtain ⟨_, _, rfl, -⟩ := stringLiteral_eq_some_iff.mp h
      exact ⟨_, _, rfl, by decide⟩
    · exact run_digits_visible h
    · exact spelled_visible (by decide) (spelled_of_spelledWord h)
    · exact spelled_visible (by decide) (spelled_of_spelledWord h)
    · exact spelled_visible (by decide) h
    · exact word_visible h
  · obtain ⟨m, -, rfl⟩ := hr
    cases m <;> exact spelled_visible (by decide) h
  · cases hk

end Lexer

end Yurin
