import Mathlib.Data.List.Forall2
import Yurin.Proofs.Token.Lexing

/-!
# Lexing a text that is made of pieces

A printer makes a text of pieces: names, reserved words, marks, blanks and line ends. The lexer
finds the pieces again when each of them may stand before the byte that follows it
(`Kind.allows`), since no rule looks further than the byte after a piece. `Linked` says this of a
whole list of pieces, and `head_piece` of one piece.
-/

namespace Yurin

/-- A piece of a text: its bytes, and the kind of token it has to become. -/
structure Piece where
  kind : Kind
  text : Bytes
  deriving DecidableEq, Repr

/-- The text that pieces make. -/
def textOf (pieces : List Piece) : Bytes := pieces.flatMap Piece.text

@[simp] theorem textOf_nil : textOf [] = [] := rfl

@[simp] theorem textOf_cons (p : Piece) (ps : List Piece) :
    textOf (p :: ps) = p.text ++ textOf ps :=
  rfl

@[simp] theorem textOf_append (ps qs : List Piece) : textOf (ps ++ qs) = textOf ps ++ textOf qs :=
  List.flatMap_append

namespace Lexer

/-- Whether a text is a word: a letter or underscore, then letters, digits and underscores. -/
def isWordText : Bytes → Bool
  | [] => false
  | b :: rest => (isLetter b || b == 95) && rest.all isWordByte

/-- Whether a text is a name: a word that is not reserved. -/
def isName (text : Bytes) : Bool := isWordText text && (keyword? text).isNone

/-- The marks that pieces use. -/
def plainMarks : List Mark :=
  [.colon, .dot, .comma, .leftBrace, .rightBrace, .leftParen, .rightParen, .leftAngle, .rightAngle,
   .eq, .divide, .nullable, .safeDot]

/-- The reserved words that pieces use: those that are spelt with letters only, and no part of a
longer one. -/
def plainWords : List Keyword := Keyword.all.filter (· ∉ [.notIn, .notIs, .as, .safeAs])

end Lexer

namespace Piece

def blank : Piece := ⟨.whitespace, utf8 " "⟩

def lineEnd : Piece := ⟨.newline, utf8 "\n"⟩

def mark (m : Mark) : Piece := ⟨.mark m, utf8 m.spelling⟩

def word (w : Keyword) : Piece := ⟨.keyword w, utf8 w.spelling⟩

def name (n : Bytes) : Piece := ⟨.identifier, n⟩

/-- A piece of one of the five forms. -/
inductive Proper : Piece → Prop
  | blank : Proper blank
  | lineEnd : Proper lineEnd
  | mark {m : Mark} (h : m ∈ Lexer.plainMarks) : Proper (mark m)
  | word {w : Keyword} (h : w ∈ Lexer.plainWords) : Proper (word w)
  | name {n : Bytes} (h : Lexer.isName n = true) : Proper (name n)

end Piece

/-- Whether a piece of a kind may stand before a byte. After a line end only a word or a closing
brace may begin the next line. -/
def Kind.allows (kind : Kind) (b : UInt8) : Bool :=
  match kind with
  | .identifier | .keyword _ => !isWordByte b
  | .whitespace => !Lexer.isBlank b
  | .newline => isWordByte b || b == 125
  | .mark .comma | .mark .leftBrace | .mark .rightBrace | .mark .leftParen | .mark .rightParen =>
    true
  | .mark .rightAngle => b != 61
  | .mark _ => !([58, 46, 61, 47, 42] : Bytes).contains b
  | _ => false

namespace Lexer

/-! ## Marks -/

theorem firstMatch_skip {text : Bytes} {r : Rule} {rs : List Rule} (h : r.length? text = none) :
    firstMatch text (r :: rs) = firstMatch text rs := by
  simp only [firstMatch, h]

theorem spelled_second {a b c : UInt8} {spelling rest : Bytes} (h : b ≠ c) :
    spelled (a :: c :: spelling) (a :: b :: rest) = none := by
  simp [spelled, h.symm]

theorem blockComment_second {b : UInt8} {rest : Bytes} (h : b ≠ 42) :
    blockComment (47 :: b :: rest) = none :=
  blockComment_none (by simp [h.symm])

theorem lineComment_second {b : UInt8} {rest : Bytes} (h : b ≠ 47) :
    lineComment (47 :: b :: rest) = none :=
  lineComment_eq_none_iff.mpr (by simp [h.symm])

/-- The token of a mark, where the rules come down to those of longer tokens, which do not match,
and the rule of the mark itself. -/
theorem head_of_longer {text : Bytes} {m : Mark} {size : Nat} (longer : List Rule)
    (hrules : firstMatch text rules = firstMatch text (longer ++ [ofMark m]))
    (hl : ∀ r ∈ longer, r.length? text = none) (hm : spelled (utf8 m.spelling) text = some size) :
    head text = (.mark m, size) := by
  have hfirst : firstMatch text rules = (.mark m, size) := by
    rw [hrules]
    clear hrules
    induction longer with
    | nil => simp only [List.nil_append, firstMatch, ofMark, hm]
    | cons r rest ih =>
      rw [List.cons_append, firstMatch_skip (hl r List.mem_cons_self)]
      exact ih fun r hr => hl r (List.mem_cons_of_mem _ hr)
  rw [head, hfirst]

/-- A mark before a byte that does not make it longer. -/
theorem head_mark_cons {m : Mark} (hm : m ∈ plainMarks) {b : UInt8} (rest : Bytes)
    (h : (Kind.mark m).allows b = true) :
    head (utf8 m.spelling ++ b :: rest) = (.mark m, (utf8 m.spelling).length) := by
  have hb (hm : (Kind.mark m).allows b = !([58, 46, 61, 47, 42] : Bytes).contains b) :
      b ≠ 58 ∧ b ≠ 46 ∧ b ≠ 61 ∧ b ≠ 47 ∧ b ≠ 42 := by
    rw [hm] at h
    simpa using h
  simp only [plainMarks, List.mem_cons, List.not_mem_nil, or_false] at hm
  rcases hm with rfl | rfl | rfl | rfl | rfl | rfl | rfl | rfl | rfl | rfl | rfl | rfl | rfl
  · refine head_of_longer [⟨.mark .reference, spelled [58, 58]⟩] rfl ?_ rfl
    exact List.forall_mem_singleton.mpr (spelled_second (hb rfl).1)
  · refine head_of_longer [⟨.mark .rangeEq, spelled [46, 46, 61]⟩,
      ⟨.mark .range, spelled [46, 46]⟩] rfl ?_ rfl
    exact List.forall_mem_cons.mpr ⟨spelled_second (hb rfl).2.1,
      List.forall_mem_singleton.mpr (spelled_second (hb rfl).2.1)⟩
  · rfl
  · rfl
  · rfl
  · rfl
  · rfl
  · refine head_of_longer [⟨.mark .lessEq, spelled [60, 61]⟩] rfl ?_ rfl
    exact List.forall_mem_singleton.mpr (spelled_second (hb rfl).2.2.1)
  · refine head_of_longer [⟨.mark .greaterEq, spelled [62, 61]⟩] rfl ?_ rfl
    exact List.forall_mem_singleton.mpr (spelled_second (by simpa [Kind.allows] using h))
  · refine head_of_longer [⟨.mark .eqEq, spelled [61, 61]⟩] rfl ?_ rfl
    exact List.forall_mem_singleton.mpr (spelled_second (hb rfl).2.2.1)
  · refine head_of_longer [⟨.blockComment, blockComment⟩, ⟨.lineComment, lineComment⟩] rfl ?_ rfl
    exact List.forall_mem_cons.mpr ⟨blockComment_second (hb rfl).2.2.2.2,
      List.forall_mem_singleton.mpr (lineComment_second (hb rfl).2.2.2.1)⟩
  · refine head_of_longer [⟨.mark .safeDot, spelled [63, 46]⟩, ⟨.mark .elvis, spelled [63, 58]⟩]
      rfl ?_ rfl
    exact List.forall_mem_cons.mpr ⟨spelled_second (hb rfl).2.1,
      List.forall_mem_singleton.mpr (spelled_second (hb rfl).1)⟩
  · rfl

theorem head_mark {m : Mark} (hm : m ∈ plainMarks) {rest : Bytes}
    (h : ∀ b ∈ rest.head?, (Kind.mark m).allows b = true) :
    head (utf8 m.spelling ++ rest) = (.mark m, (utf8 m.spelling).length) := by
  cases rest with
  | nil =>
    revert m
    decide +kernel
  | cons b rest => exact head_mark_cons hm rest (h b rfl)

/-! ## Words -/

/-- A byte that begins a word begins nothing else. -/
theorem ne_of_beginsWord {b c : UInt8} (h : (isLetter b || b == 95) = true)
    (hc : (isLetter c || c == 95) = false) : b ≠ c := by
  rintro rfl
  rw [h] at hc
  cases hc

theorem isBlank_of_beginsWord {b : UInt8} (h : (isLetter b || b == 95) = true) :
    isBlank b = false := by
  have hne {c : UInt8} (hc : (isLetter c || c == 95) = false) : (b == c) = false :=
    beq_eq_false_iff_ne.mpr (ne_of_beginsWord h hc)
  simp only [isBlank, hne (c := 32) rfl, hne (c := 9) rfl, hne (c := 13) rfl, hne (c := 12) rfl,
    Bool.or_self]

theorem isDigit_of_beginsWord {b : UInt8} (h : (isLetter b || b == 95) = true) :
    isDigit b = false := by
  simp only [isLetter, isDigit, Bool.or_eq_true, Bool.and_eq_true, decide_eq_true_eq, beq_iff_eq,
    Bool.and_eq_false_iff, decide_eq_false_iff_not, UInt8.le_iff_toNat_le, ← UInt8.toNat_inj]
    at h ⊢
  simp only [UInt8.reduceToNat] at h ⊢
  omega

theorem spelledWord_first {b c : UInt8} {spelling rest : Bytes} (h : b ≠ c) :
    spelledWord (c :: spelling) (b :: rest) = none := by
  simp [spelledWord, Bytes.dropHead?, h.symm]

/-- The word before a byte that does not continue it is matched as a whole. -/
theorem word_append {w rest : Bytes} (hw : isWordText w = true)
    (hr : ∀ b ∈ rest.head?, isWordByte b = false) : word (w ++ rest) = some w.length := by
  cases w with
  | nil => cases hw
  | cons b w =>
    simp only [isWordText, Bool.and_eq_true, List.all_eq_true] at hw
    have htake : (w ++ rest).takeWhile isWordByte = w := by
      rw [List.takeWhile_append_of_pos hw.2]
      cases rest with
      | nil => simp
      | cons c rest => simp [hr c rfl]
    rw [List.cons_append, word, if_pos hw.1, htake, List.length_cons]

/-- Only the word `as` can be taken for the beginning of `as?`. -/
theorem spelled_safeAs {w rest : Bytes} (hw : isWordText w = true)
    (hr : ∀ b ∈ rest.head?, isWordByte b = false) (has : w ≠ utf8 "as") :
    spelled (utf8 "as?") (w ++ rest) = none := by
  show spelled [97, 115, 63] (w ++ rest) = none
  have has : w ≠ [97, 115] := has
  match w, hw with
  | [b], _ =>
    cases rest with
    | nil => simp [spelled]
    | cons c rest =>
      have hc : c ≠ 115 := by
        rintro rfl
        exact absurd (hr 115 rfl) (by decide)
      simp [spelled, hc.symm]
  | [b, c], _ =>
    have hbc : ¬ (97 = b ∧ 115 = c) := by
      rintro ⟨rfl, rfl⟩
      exact has rfl
    simp only [spelled, List.cons_append, List.nil_append]
    rw [if_neg]
    simp only [List.isPrefixOf_iff_prefix, List.cons_prefix_cons, not_and]
    intro hb hc
    exact absurd ⟨hb, hc⟩ hbc
  | b :: c :: d :: w, hw =>
    have hd : d ≠ 63 := by
      rintro rfl
      simp [isWordText, isWordByte, isLetter, isDigit] at hw
    simp [spelled, hd.symm]

/-- **A word is lexed as a whole**, where no word byte follows it. -/
theorem head_word {w rest : Bytes} (hw : isWordText w = true)
    (hr : ∀ b ∈ rest.head?, isWordByte b = false) (has : w ≠ utf8 "as") :
    head (w ++ rest) = (wordKind w, w.length) := by
  have hword := word_append hw hr
  have hsafe := spelled_safeAs hw hr has
  have hfirst : firstMatch (w ++ rest) rules = (.identifier, w.length) := by
    cases w with
    | nil => cases hw
    | cons b w =>
      simp only [isWordText, Bool.and_eq_true] at hw
      have h47 : b ≠ 47 := ne_of_beginsWord hw.1 rfl
      have h10 : b ≠ 10 := ne_of_beginsWord hw.1 rfl
      have h13 : b ≠ 13 := ne_of_beginsWord hw.1 rfl
      have h34 : b ≠ 34 := ne_of_beginsWord hw.1 rfl
      have h33 : b ≠ 33 := ne_of_beginsWord hw.1 rfl
      rw [List.cons_append] at hword hsafe ⊢
      have hblock : blockComment (b :: (w ++ rest)) = none :=
        blockComment_none (by simp [h47.symm])
      have hline : lineComment (b :: (w ++ rest)) = none :=
        lineComment_eq_none_iff.mpr (by simp [h47.symm])
      have hbreak : lineBreak (b :: (w ++ rest)) = none :=
        lineBreak_eq_none_iff.mpr (by simp [h10.symm, h13.symm])
      have hstring : stringLiteral (b :: (w ++ rest)) = none :=
        stringLiteral_none (by simp [h34.symm])
      simp only [rules, List.cons_append]
      rw [firstMatch_skip hblock, firstMatch_skip hline, firstMatch_skip hbreak,
        firstMatch_skip (run_eq_none_iff.mpr (isBlank_of_beginsWord hw.1)), firstMatch_skip hstring,
        firstMatch_skip (run_eq_none_iff.mpr (isDigit_of_beginsWord hw.1)),
        firstMatch_skip (spelledWord_first h33),
        firstMatch_skip (spelledWord_first h33), firstMatch_skip hsafe]
      simp only [firstMatch, hword]
  rw [head, hfirst]
  simp only [List.take_left']

theorem plainMarks_ne_nil {m : Mark} (h : m ∈ plainMarks) : utf8 m.spelling ≠ [] := by
  revert m
  decide

theorem ne_nil_of_isWordText {w : Bytes} (h : isWordText w = true) : w ≠ [] := by
  rintro rfl
  cases h

theorem plainWords_spelled {w : Keyword} (h : w ∈ plainWords) :
    isWordText (utf8 w.spelling) = true ∧ wordKind (utf8 w.spelling) = .keyword w ∧
      utf8 w.spelling ≠ utf8 "as" := by
  revert w
  decide +kernel

theorem isName_spelled {n : Bytes} (h : isName n = true) :
    isWordText n = true ∧ wordKind n = .identifier ∧ n ≠ utf8 "as" := by
  simp only [isName, Bool.and_eq_true, Option.isNone_iff_eq_none] at h
  refine ⟨h.1, by rw [wordKind, h.2], ?_⟩
  rintro rfl
  exact absurd h.2 (by decide)

end Lexer

/-! ## Lists of pieces -/

/-- **A piece is lexed as one token**, where it may stand before what follows. -/
theorem Piece.Proper.head {p : Piece} (hp : p.Proper) {rest : Bytes}
    (h : ∀ b ∈ rest.head?, p.kind.allows b = true) :
    p.text ≠ [] ∧ Lexer.head (p.text ++ rest) = (p.kind, p.text.length) := by
  cases hp with
  | blank =>
    refine ⟨by decide, ?_⟩
    cases rest with
    | nil => rfl
    | cons b rest =>
      have hb : Lexer.isBlank b = false := by simpa [Kind.allows, Piece.blank] using h b rfl
      have hrun : Lexer.run Lexer.isBlank (32 :: b :: rest) = some 1 := by
        simp [Lexer.run, hb, show Lexer.isBlank 32 = true from rfl]
      have hrules : Lexer.firstMatch (32 :: b :: rest) Lexer.rules =
          Lexer.firstMatch (32 :: b :: rest) [⟨.whitespace, Lexer.run Lexer.isBlank⟩] := rfl
      show Lexer.head (32 :: b :: rest) = _
      rw [Lexer.head, hrules]
      simp only [Lexer.firstMatch, hrun]
      rfl
  | lineEnd => exact ⟨by decide, rfl⟩
  | mark hm => exact ⟨Lexer.plainMarks_ne_nil hm, Lexer.head_mark hm h⟩
  | word hw =>
    obtain ⟨htext, hkind, has⟩ := Lexer.plainWords_spelled hw
    refine ⟨Lexer.ne_nil_of_isWordText htext, ?_⟩
    rw [Piece.word, ← hkind]
    exact Lexer.head_word htext (fun b hb => by simpa [Kind.allows, Piece.word] using h b hb) has
  | name hn =>
    obtain ⟨htext, hkind, has⟩ := Lexer.isName_spelled hn
    refine ⟨Lexer.ne_nil_of_isWordText htext, ?_⟩
    rw [Piece.name, ← hkind]
    exact Lexer.head_word htext (fun b hb => by simpa [Kind.allows, Piece.name] using h b hb) has

/-- The first byte of the pieces, or else the byte after them. -/
def firstByte (pieces : List Piece) (next : Option UInt8) : Option UInt8 :=
  match pieces with
  | [] => next
  | p :: _ => p.text.head?

/-- **Every piece may stand before what follows it**; after the last comes the byte `next`, or
nothing. -/
def Linked : List Piece → (next : Option UInt8) → Prop
  | [], _ => True
  | p :: rest, next =>
    p.Proper ∧ (∀ b ∈ firstByte rest next, p.kind.allows b = true) ∧ Linked rest next

@[simp] theorem firstByte_nil (next : Option UInt8) : firstByte [] next = next := rfl

@[simp] theorem firstByte_cons (p : Piece) (ps : List Piece) (next : Option UInt8) :
    firstByte (p :: ps) next = p.text.head? := rfl

theorem firstByte_append (ps qs : List Piece) (next : Option UInt8) :
    firstByte (ps ++ qs) next = firstByte ps (firstByte qs next) := by
  cases ps <;> rfl

theorem linked_append {ps qs : List Piece} {next : Option UInt8} :
    Linked (ps ++ qs) next ↔ Linked ps (firstByte qs next) ∧ Linked qs next := by
  induction ps with
  | nil => simp [Linked]
  | cons p ps ih =>
    rw [List.cons_append, Linked, Linked, ih, firstByte_append, and_assoc, and_assoc]

/-- Pieces that are linked begin with the first byte of their text. -/
theorem Linked.firstByte_eq {ps : List Piece} {next : Option UInt8} (h : Linked ps next)
    (rest : Bytes) (hr : rest.head? = next) : (textOf ps ++ rest).head? = firstByte ps next := by
  cases ps with
  | nil => exact hr
  | cons p ps =>
    obtain ⟨hp, -, -⟩ := h
    cases ht : p.text with
    | nil =>
      have hnone : ∀ b ∈ ([] : Bytes).head?, p.kind.allows b = true := nofun
      exact absurd ht (hp.head hnone).1
    | cons b t => simp [ht]

/-- A token is the token of a piece. -/
def Token.Of (t : Token) (p : Piece) : Prop := t.kind = p.kind ∧ t.text = p.text

/-- The tokens of a text that begins with a piece. -/
theorem tokensFrom_piece (place : Place) {p : Piece} {rest : Bytes} (hne : p.text ≠ [])
    (hhead : Lexer.head (p.text ++ rest) = (p.kind, p.text.length)) :
    ∃ t : Token, t.Of p ∧ Lexer.tokensFrom 0 place (p.text ++ rest) =
      t :: Lexer.tokensFrom 0 (place.after p.text) rest := by
  have hcons : p.text ++ rest ≠ [] := List.append_ne_nil_of_left_ne_nil hne rest
  rw [Lexer.tokensFrom_eq place hcons, Lexer.headToken, hhead]
  dsimp only
  rw [List.take_left, List.drop_left]
  exact ⟨_, ⟨rfl, rfl⟩, rfl⟩

/-- **The tokens of linked pieces** are the pieces, and an end of input. -/
theorem tokensFrom_textOf (place : Place) {ps : List Piece} (h : Linked ps none) :
    ∃ ts final, Lexer.tokensFrom 0 place (textOf ps) = ts ++ [final] ∧
      List.Forall₂ Token.Of ts ps ∧ final.kind = .eof := by
  induction ps generalizing place with
  | nil => exact ⟨[], Lexer.endToken place, rfl, .nil, rfl⟩
  | cons p ps ih =>
    obtain ⟨hp, hnext, hrest⟩ := h
    have hbyte := hrest.firstByte_eq [] rfl
    rw [List.append_nil] at hbyte
    rw [← hbyte] at hnext
    obtain ⟨hne, hhead⟩ := hp.head hnext
    obtain ⟨t, ht, hfirst⟩ := tokensFrom_piece place hne hhead
    obtain ⟨ts, final, htokens, hts, hfinal⟩ := ih (place.after p.text) hrest
    rw [textOf_cons, hfirst, htokens]
    exact ⟨t :: ts, final, rfl, .cons ht hts, hfinal⟩

/-! ## Separated pieces -/

/-- Pieces with others between neighbours. -/
def separated (sep : List Piece) : List (List Piece) → List Piece
  | [] => []
  | [ps] => ps
  | ps :: rest => ps ++ sep ++ separated sep rest

/-- The pieces of some items, with commas between them. -/
def commaPieces (items : List (List Piece)) : List Piece :=
  separated [.mark .comma, .blank] items

theorem textOf_separated (sep : List Piece) (items : List (List Piece)) :
    textOf (separated sep items) = Bytes.join (textOf sep) (items.map textOf) := by
  induction items with
  | nil => rfl
  | cons ps rest ih =>
    cases rest with
    | nil => rfl
    | cons qs rest =>
      rw [separated, textOf_append, textOf_append, ih]
      · rfl
      · simp

/-! ## What pieces begin with -/

/-- Before such a byte any name, word or mark may end. -/
def Parted (next : Option UInt8) : Prop :=
  ∀ b ∈ next, isWordByte b = false ∧ ([58, 46, 61, 47, 42] : Bytes).contains b = false

/-- Pieces that begin with a word. -/
def BeginsWord (ps : List Piece) : Prop :=
  ∀ next, ∃ b, firstByte ps next = some b ∧ isWordByte b = true

theorem parted_byte {b : UInt8} (h : isWordByte b = false)
    (h' : ([58, 46, 61, 47, 42] : Bytes).contains b = false) : Parted (some b) := by
  intro c hc
  cases hc
  exact ⟨h, h'⟩

theorem Parted.allows_name {next : Option UInt8} (h : Parted next) :
    ∀ b ∈ next, Kind.identifier.allows b = true := fun b hb => by
  simp [Kind.allows, (h b hb).1]

theorem Parted.allows_word {next : Option UInt8} (h : Parted next) (w : Keyword) :
    ∀ b ∈ next, (Kind.keyword w).allows b = true := fun b hb => by
  simp [Kind.allows, (h b hb).1]

/-- A mark ends before every byte that makes no mark longer. -/
theorem Kind.allows_mark {b : UInt8} (m : Mark)
    (h : ([58, 46, 61, 47, 42] : Bytes).contains b = false) : (Kind.mark m).allows b = true := by
  unfold Kind.allows
  split <;> simp_all

theorem Parted.allows_mark {next : Option UInt8} (h : Parted next) (m : Mark) :
    ∀ b ∈ next, (Kind.mark m).allows b = true := fun b hb => Kind.allows_mark m (h b hb).2

theorem ne_of_isWordByte {b c : UInt8} (h : isWordByte b = true) (hc : isWordByte c = false) :
    (b == c) = false := by
  rw [beq_eq_false_iff_ne]
  rintro rfl
  rw [h] at hc
  cases hc

theorem BeginsWord.allows_mark {ps : List Piece} (h : BeginsWord ps) (m : Mark)
    (next : Option UInt8) : ∀ b ∈ firstByte ps next, (Kind.mark m).allows b = true := by
  obtain ⟨c, hc, hw⟩ := h next
  intro b hb
  rw [hc] at hb
  cases hb
  refine Kind.allows_mark m ?_
  simp only [List.contains_cons, List.contains_nil, ne_of_isWordByte hw (c := 58) rfl,
    ne_of_isWordByte hw (c := 46) rfl, ne_of_isWordByte hw (c := 61) rfl,
    ne_of_isWordByte hw (c := 47) rfl, ne_of_isWordByte hw (c := 42) rfl, Bool.or_self]

theorem BeginsWord.allows_blank {ps : List Piece} (h : BeginsWord ps) (next : Option UInt8) :
    ∀ b ∈ firstByte ps next, Kind.whitespace.allows b = true := by
  obtain ⟨c, hc, hw⟩ := h next
  intro b hb
  rw [hc] at hb
  cases hb
  simp only [Kind.allows, Lexer.isBlank, ne_of_isWordByte hw (c := 32) rfl,
    ne_of_isWordByte hw (c := 9) rfl, ne_of_isWordByte hw (c := 13) rfl,
    ne_of_isWordByte hw (c := 12) rfl, Bool.or_self, Bool.not_false]

theorem BeginsWord.allows_lineEnd {ps : List Piece} (h : BeginsWord ps) (next : Option UInt8) :
    ∀ b ∈ firstByte ps next, Kind.newline.allows b = true := by
  obtain ⟨c, hc, hw⟩ := h next
  intro b hb
  rw [hc] at hb
  cases hb
  simp [Kind.allows, hw]

theorem BeginsWord.append {ps : List Piece} (h : BeginsWord ps) (qs : List Piece) :
    BeginsWord (ps ++ qs) := fun next => by
  rw [firstByte_append]
  exact h _

/-- The first byte of a word is a word byte. -/
theorem head_of_isWordText {w : Bytes} (h : Lexer.isWordText w = true) :
    ∃ b, w.head? = some b ∧ isWordByte b = true := by
  cases w with
  | nil => cases h
  | cons b w =>
    simp only [Lexer.isWordText, Bool.and_eq_true, Bool.or_eq_true] at h
    refine ⟨b, rfl, ?_⟩
    rcases h.1 with hb | hb <;> simp [isWordByte, hb]

theorem beginsWord_name {n : Bytes} (h : Lexer.isName n = true) (ps : List Piece) :
    BeginsWord (.name n :: ps) := fun _ => head_of_isWordText (Lexer.isName_spelled h).1

theorem beginsWord_word {w : Keyword} (h : w ∈ Lexer.plainWords) (ps : List Piece) :
    BeginsWord (.word w :: ps) := fun _ => head_of_isWordText (Lexer.plainWords_spelled h).1

theorem beginsWord_commas {items : List (List Piece)} (hne : items ≠ [])
    (h : ∀ ps ∈ items, BeginsWord ps) : BeginsWord (commaPieces items) := by
  cases items with
  | nil => contradiction
  | cons ps rest =>
    have hps := h ps List.mem_cons_self
    cases rest with
    | nil => exact hps
    | cons => exact (hps.append _).append _

/-! ## Phrases and parts

A `Phrase` begins with a word, a `Solid` list of pieces with no blank, and a `Part` may be empty and
else begins with a parting byte. All of them are linked before a parting byte, so they can be put
together without looking at their pieces again. -/

/-- Pieces that begin with a word and may stand before any parting byte. -/
structure Phrase (ps : List Piece) : Prop where
  begins : BeginsWord ps
  linked : ∀ next, Parted next → Linked ps next

/-- Pieces that begin with no blank and may stand before any parting byte. -/
structure Solid (ps : List Piece) : Prop where
  begins : ∀ next, ∀ b ∈ firstByte ps next, Kind.whitespace.allows b = true
  linked : ∀ next, Parted next → Linked ps next

/-- Pieces that begin with a parting byte, if there are any, and may stand before another. -/
structure Part (ps : List Piece) : Prop where
  begins : ∀ next, Parted next → Parted (firstByte ps next)
  linked : ∀ next, Parted next → Linked ps next

theorem Phrase.solid {ps : List Piece} (h : Phrase ps) : Solid ps :=
  ⟨h.begins.allows_blank, h.linked⟩

theorem Phrase.append {ps qs : List Piece} (h : Phrase ps) (hq : Part qs) : Phrase (ps ++ qs) :=
  ⟨h.begins.append qs, fun next hn =>
    linked_append.mpr ⟨h.linked _ (hq.begins next hn), hq.linked next hn⟩⟩

theorem Part.nil : Part [] := ⟨fun _ h => h, fun _ _ => trivial⟩

theorem Part.append {ps qs : List Piece} (h : Part ps) (hq : Part qs) : Part (ps ++ qs) :=
  ⟨fun next hn => by rw [firstByte_append]; exact h.begins _ (hq.begins next hn), fun next hn =>
    linked_append.mpr ⟨h.linked _ (hq.begins next hn), hq.linked next hn⟩⟩

theorem phrase_name {n : Bytes} (h : Lexer.isName n = true) : Phrase [.name n] :=
  ⟨beginsWord_name h [], fun _ hn => ⟨.name h, hn.allows_name, trivial⟩⟩

theorem phrase_word {w : Keyword} (h : w ∈ Lexer.plainWords) : Phrase [.word w] :=
  ⟨beginsWord_word h [], fun _ hn => ⟨.word h, hn.allows_word w, trivial⟩⟩

/-- A word in front of something else. -/
theorem Solid.word {w : Keyword} (h : w ∈ Lexer.plainWords) {ps : List Piece} (hp : Solid ps) :
    Phrase (.word w :: .blank :: ps) := by
  refine ⟨beginsWord_word h _, fun next hn => ⟨.word h, ?_, .blank, hp.begins next, hp.linked _ hn⟩⟩
  exact (parted_byte rfl rfl : Parted (some 32)).allows_word w

theorem phrase_commas {items : List (List Piece)} (hne : items ≠ []) (h : ∀ ps ∈ items, Phrase ps) :
    Phrase (commaPieces items) := by
  refine ⟨beginsWord_commas hne fun ps hps => (h ps hps).begins, fun next hn => ?_⟩
  induction items with
  | nil => trivial
  | cons ps rest ih =>
    have hps := (h ps List.mem_cons_self).linked
    cases rest with
    | nil => exact hps next hn
    | cons qs rest =>
      have htail : ∀ x ∈ qs :: rest, Phrase x := fun x hx => h x (List.mem_cons_of_mem _ hx)
      have hbegin : BeginsWord (commaPieces (qs :: rest)) :=
        beginsWord_commas (by simp) fun x hx => (htail x hx).begins
      rw [commaPieces, separated, List.append_assoc, linked_append]
      · refine ⟨hps _ (parted_byte rfl rfl), .mark (by decide), fun _ _ => rfl, .blank, ?_, ?_⟩
        · exact hbegin.allows_blank next
        · exact ih (by simp) htail
      · simp

/-- A mark at the end, after what it closes. -/
theorem Phrase.close {ps : List Piece} (h : Phrase ps) (m : Mark) (hm : m ∈ Lexer.plainMarks)
    (hb : Parted (Piece.mark m).text.head?) {next : Option UInt8} (hn : Parted next) :
    Linked (ps ++ [.mark m]) next :=
  linked_append.mpr ⟨h.linked _ hb, .mark hm, hn.allows_mark m, trivial⟩

/-- A phrase between angle brackets. -/
theorem Phrase.angles {ps : List Piece} (h : Phrase ps) :
    Part (.mark .leftAngle :: ps ++ [.mark .rightAngle]) := by
  refine ⟨fun next _ => parted_byte rfl rfl, fun next hn => ⟨.mark (by decide), ?_, ?_⟩⟩
  · exact (h.begins.append _).allows_mark .leftAngle next
  · exact h.close .rightAngle (by decide) (parted_byte rfl rfl) hn

end Yurin
