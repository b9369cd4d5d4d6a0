import Yurin.Proofs.Text.Boundaries
import Yurin.Proofs.Token.Lexing

/-!
# The lexer cuts between characters

A rule of the lexer looks at bytes, and in comments and string literals any byte may stand. Yet its
match never ends inside a character (`rules_cut`): it ends with an ASCII byte, or in front of one,
or at the end of the text, or it is a single character. So every token of a source begins and ends
at a boundary between characters: `lex_boundary`.
-/

namespace Yurin

namespace Lexer

/-- The matches of a rule end at boundaries. -/
def Rule.Cuts (r : Rule) : Prop :=
  ∀ ⦃text : Bytes⦄ ⦃n : Nat⦄, r.length? text = some n → Boundary text n

/-! ## Matches that end with an ASCII byte -/

theorem boundary_of_getLast? {text : Bytes} {n : Nat} {b : UInt8}
    (h : (text.take n).getLast? = some b) (hb : b < 128) : Boundary text n := by
  by_cases hn : n ≤ text.length
  · obtain ⟨init, hinit⟩ := List.getLast?_eq_some_iff.mp h
    have hlen := congrArg List.length hinit
    rw [List.length_take, Nat.min_eq_left hn, List.length_append, List.length_singleton] at hlen
    have hsplit : text = init ++ b :: text.drop n := by
      nth_rewrite 1 [← List.take_append_drop n text]
      rw [hinit]
      simp
    rw [hsplit, hlen]
    exact boundary_after_ascii init hb _
  · have hle : text.length ≤ n := Nat.le_of_not_le hn
    rw [Boundary, List.take_of_length_le hle, List.drop_of_length_le hle]
    simp

/-- A match without other than ASCII bytes. -/
theorem boundary_of_ascii {text : Bytes} {n : Nat} (h : ∀ b ∈ text.take n, b < 128) :
    Boundary text n := by
  cases hlast : (text.take n).getLast? with
  | some b => exact boundary_of_getLast? hlast (h b (List.mem_of_getLast? hlast))
  | none =>
    rcases List.take_eq_nil_iff.mp (List.getLast?_eq_none_iff.mp hlast) with rfl | rfl
    · exact boundary_zero _
    · simp [Boundary]

section Matches

variable {text : Bytes} {n : Nat}

theorem spelled_cuts {spelling : Bytes} (hs : ∀ b ∈ spelling, b < 128)
    (h : spelled spelling text = some n) : Boundary text n := by
  obtain ⟨⟨rest, rfl⟩, rfl⟩ := spelled_eq_some_iff.mp h
  refine boundary_of_ascii fun b hb => hs b ?_
  rwa [List.take_left] at hb

theorem run_cuts {p : UInt8 → Bool} (hp : ∀ b, p b = true → b < 128)
    (h : run p text = some n) : Boundary text n := by
  obtain ⟨-, rfl⟩ := run_eq_some_iff.mp h
  refine boundary_of_ascii fun b hb => hp b (List.mem_takeWhile_imp (l := text) ?_)
  rwa [← List.prefix_iff_eq_take.mp (List.takeWhile_prefix p)] at hb

theorem isBlank_ascii (b : UInt8) (h : isBlank b = true) : b < 128 := by
  simp only [isBlank, Bool.or_eq_true, beq_iff_eq] at h
  rcases h with ((rfl | rfl) | rfl) | rfl <;> decide

theorem isDigit_ascii (b : UInt8) (h : isDigit b = true) : b < 128 := by
  simp only [isDigit, Bool.and_eq_true, decide_eq_true_eq] at h
  exact UInt8.lt_of_le_of_lt h.2 (by decide)

theorem isWordByte_ascii (b : UInt8) (h : isWordByte b = true) : b < 128 := by
  simp only [isWordByte, isLetter, Bool.or_eq_true, Bool.and_eq_true, decide_eq_true_eq,
    beq_iff_eq] at h
  rcases h with ((h | h) | h) | rfl
  · exact UInt8.lt_of_le_of_lt h.2 (by decide)
  · exact UInt8.lt_of_le_of_lt h.2 (by decide)
  · exact isDigit_ascii b h
  · decide

theorem word_cuts (h : word text = some n) : Boundary text n := by
  obtain ⟨b, rest, rfl, hb, hn⟩ := word_eq_some_iff.mp h
  have hfirst : isWordByte b = true := by
    simp only [Bool.or_eq_true] at hb
    rcases hb with hb | hb
    · simp [isWordByte, hb]
    · simp [isWordByte, hb]
  -- a word is a run of word bytes that does not begin with a digit
  refine run_cuts isWordByte_ascii (run_eq_some_iff.mpr ⟨?_, ?_⟩)
  · omega
  · rw [List.takeWhile_cons_of_pos hfirst, List.length_cons, hn]

theorem blockComment_cuts (h : blockComment text = some n) : Boundary text n := by
  obtain ⟨_, m, rfl, hclose, rfl⟩ := blockComment_eq_some_iff.mp h
  obtain ⟨body, behind, rfl, rfl⟩ := commentClose_splits hclose
  have hboundary := boundary_after_ascii (47 :: 42 :: (body ++ [42])) (b := 47) (by decide) behind
  simpa using hboundary

theorem stringLiteral_cuts (h : stringLiteral text = some n) : Boundary text n := by
  obtain ⟨_, m, rfl, hclose, rfl⟩ := stringLiteral_eq_some_iff.mp h
  obtain ⟨body, behind, rfl, rfl⟩ := quoteClose_splits hclose
  exact boundary_after_ascii (34 :: body) (by decide) behind

theorem lineBreak_cuts (h : lineBreak text = some n) : Boundary text n := by
  rcases lineBreak_eq_some_iff.mp h with ⟨rfl, more, rfl⟩ | ⟨rfl, more, rfl⟩
  · exact boundary_after_ascii [] (by decide) more
  · exact boundary_after_ascii [13] (by decide) more

/-! ## Other matches -/

/-- A line comment ends in front of a line feed or with the text. -/
theorem lineComment_cuts (h : lineComment text = some n) : Boundary text n := by
  obtain ⟨rest, rfl, rfl⟩ := lineComment_eq_some_iff.mp h
  obtain ⟨body, behind, hbody, hbehind⟩ : ∃ body behind,
      rest.takeWhile (· != lineFeed) = body ∧ rest.dropWhile (· != lineFeed) = behind :=
    ⟨_, _, rfl, rfl⟩
  have hsplit : (47 :: 47 :: rest : Bytes) = 47 :: 47 :: body ++ behind := by
    rw [← hbody, ← hbehind, List.cons_append, List.cons_append, List.takeWhile_append_dropWhile]
  rw [hsplit, hbody]
  cases behind with
  | nil =>
    rw [List.append_nil]
    exact boundary_length (47 :: 47 :: body)
  | cons b more =>
    have hb : b = lineFeed := by
      have hhead := List.head?_dropWhile_not (· != lineFeed) rest
      simpa [hbehind] using hhead
    subst hb
    exact boundary_before_ascii (47 :: 47 :: body) (by decide) more

theorem character_cuts (h : character text = some n) : Boundary text n := by
  obtain ⟨b, rest, rfl, rfl⟩ := character_eq_some_iff.mp h
  have hsplit := boundary_of_runes ((runes_cons b rest).trans
    (List.singleton_append).symm)
  have hle := (decodeRune_bounds b rest).2
  simpa [Nat.min_eq_left hle] using hsplit

end Matches

theorem rules_cut {r : Rule} (h : r ∈ rules) : r.Cuts := by
  simp only [rules, List.mem_append, List.mem_cons, List.not_mem_nil, or_false, List.mem_map] at h
  rcases h with (h | h) | rfl
  · rcases h with rfl | rfl | rfl | rfl | rfl | rfl | rfl | rfl | rfl | rfl
    · exact fun _ _ => blockComment_cuts
    · exact fun _ _ => lineComment_cuts
    · exact fun _ _ => lineBreak_cuts
    · exact fun _ _ => run_cuts isBlank_ascii
    · exact fun _ _ => stringLiteral_cuts
    · exact fun _ _ => run_cuts isDigit_ascii
    · exact fun _ _ h => spelled_cuts (by decide +kernel) (spelled_of_spelledWord h)
    · exact fun _ _ h => spelled_cuts (by decide +kernel) (spelled_of_spelledWord h)
    · exact fun _ _ => spelled_cuts (by decide +kernel)
    · exact fun _ _ => word_cuts
  · obtain ⟨m, -, rfl⟩ := h
    exact fun _ _ => spelled_cuts (by cases m <;> decide +kernel)
  · exact fun _ _ => character_cuts

/-! ## Token after token -/

/-- **The first token of a text** ends at a boundary. -/
theorem head_cuts {text : Bytes} (ht : text ≠ []) : Boundary text (head text).2 := by
  obtain ⟨rule, hrule, hlength, -⟩ := (head_firstRule ht).exists_rule
  exact rules_cut hrule hlength

end Lexer

/-- The characters of a text that is cut at a place. -/
theorem boundary_of_cut {before text : Bytes}
    (hcut : runes (before ++ text) = runes before ++ runes text) :
    Boundary (before ++ text) before.length := by
  rw [Boundary, List.take_left, List.drop_left, hcut]

theorem Lexed.boundary {t : Token} {before text : Bytes} {tokens : List Token}
    (h : Lexed before text tokens) (hcut : runes (before ++ text) = runes before ++ runes text)
    (ht : t ∈ tokens) :
    Boundary (before ++ text) t.start.toNat ∧ Boundary (before ++ text) t.stop.toNat := by
  induction h with
  | @stop before u hkind htext hw =>
    obtain rfl := List.mem_singleton.mp ht
    have hboundary := boundary_of_cut hcut
    rw [hw.start, hw.stop, htext]
    exact ⟨hboundary, hboundary⟩
  | @token before rest u more hne hhead hw _ ih =>
    -- behind the first token the characters of the rest begin
    have hnext : runes (before ++ u.text ++ rest) = runes (before ++ u.text) ++ runes rest := by
      have hown := Lexer.head_cuts (List.append_ne_nil_of_left_ne_nil hne rest)
      rw [hhead, Boundary, List.take_left, List.drop_left] at hown
      have hsplit : runes (before ++ u.text ++ rest) =
          (runes before ++ runes u.text) ++ runes rest := by
        rw [List.append_assoc, hcut, hown, List.append_assoc]
      have hfront := (runes_of_append hsplit).1
      rw [List.flatMap_append, flatMap_runes, flatMap_runes] at hfront
      rw [hsplit, hfront]
    rcases List.mem_cons.mp ht with rfl | ht
    · have hstop := boundary_of_cut hnext
      rw [List.append_assoc, List.length_append] at hstop
      rw [hw.start, hw.stop]
      exact ⟨boundary_of_cut hcut, hstop⟩
    · rw [← List.append_assoc]
      exact ih hnext ht

/-- **The tokens of a source begin and end between characters.** -/
theorem lex_boundary {t : Token} {source : Bytes} (h : t ∈ lex source) :
    Boundary source t.start.toNat ∧ Boundary source t.stop.toNat :=
  (lex_lexed source).boundary rfl h

end Yurin
