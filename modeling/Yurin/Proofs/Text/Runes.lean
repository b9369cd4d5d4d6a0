import Mathlib.Data.List.DropRight
import Yurin.Proofs.Token.Rules

/-!
# The characters of a text

The characters of a text, one after the other, are the text: `flatMap_runes`. Each of them is
encoded as it was decoded: `encodeRune_of_mem`. Cutting a text between two characters cuts its list
of characters there: `runes_of_append`. With all that, the blanks at the ends of a text are counted
in characters.
-/

namespace Yurin

/-! ## Decoding a character -/

/-- With a second byte at hand, what comes after it does not matter. -/
theorem decodeTwo?_append (b : UInt8) (rest more : Bytes) :
    decodeTwo? b (rest ++ more) = decodeTwo? b rest ∨
      rest.length < 1 ∧ decodeTwo? b rest = none :=
  match rest with
  | [] => .inr ⟨by simp, rfl⟩
  | _ :: _ => .inl rfl

theorem decodeThree?_append (b : UInt8) (rest more : Bytes) :
    decodeThree? b (rest ++ more) = decodeThree? b rest ∨
      rest.length < 2 ∧ decodeThree? b rest = none :=
  match rest with
  | [] | [_] => .inr ⟨by simp, rfl⟩
  | _ :: _ :: _ => .inl rfl

theorem decodeFour?_append (b : UInt8) (rest more : Bytes) :
    decodeFour? b (rest ++ more) = decodeFour? b rest ∨
      rest.length < 3 ∧ decodeFour? b rest = none :=
  match rest with
  | [] | [_] | [_, _] => .inr ⟨by simp, rfl⟩
  | _ :: _ :: _ :: _ => .inl rfl

/-- **A character is decoded from its own bytes**: what comes after them does not matter. -/
theorem decodeRune_append (b : UInt8) (rest more : Bytes)
    (h : (decodeRune b (rest ++ more)).2 ≤ rest.length + 1) :
    decodeRune b rest = decodeRune b (rest ++ more) := by
  -- a sequence that is too long for `rest` would have made the character longer than it is
  have agree {x y : Option Nat} {n : Nat} (hxy : x = y ∨ rest.length < n ∧ y = none)
      (hx : ∀ code, x = some code → n ≤ rest.length) : x = y := by
    rcases hxy with hxy | ⟨hshort, rfl⟩
    · exact hxy
    · cases x with
      | none => rfl
      | some code => exact absurd (hx code rfl) (by omega)
  unfold decodeRune at h ⊢
  by_cases hb : b < 128
  · rw [if_pos hb, if_pos hb]
  rw [if_neg hb] at h
  rw [if_neg hb, if_neg hb]
  have htwo := agree (decodeTwo?_append b rest more) fun code hcode => by
    simp only [hcode] at h
    omega
  rw [htwo] at h ⊢
  cases h₂ : decodeTwo? b rest with
  | some code => rfl
  | none =>
    simp only [h₂] at h ⊢
    have hthree := agree (decodeThree?_append b rest more) fun code hcode => by
      simp only [hcode] at h
      omega
    rw [hthree] at h ⊢
    cases h₃ : decodeThree? b rest with
    | some code => rfl
    | none =>
      simp only [h₃] at h ⊢
      have hfour := agree (decodeFour?_append b rest more) fun code hcode => by
        simp only [hcode] at h
        omega
      rw [hfour]

/-! ## Encoding a character -/

theorem encodeRune_eq {code : Nat} (h : code.isValidChar) :
    encodeRune code =
      if code ≤ 127 then [UInt8.ofNat code]
      else if code ≤ 2047 then [UInt8.ofNat (code / 64 % 32 + 192), UInt8.ofNat (code % 64 + 128)]
      else if code ≤ 65535 then
        [UInt8.ofNat (code / 4096 % 16 + 224), UInt8.ofNat (code / 64 % 64 + 128),
          UInt8.ofNat (code % 64 + 128)]
      else
        [UInt8.ofNat (code / 262144 % 8 + 240), UInt8.ofNat (code / 4096 % 64 + 128),
          UInt8.ofNat (code / 64 % 64 + 128), UInt8.ofNat (code % 64 + 128)] := by
  have hcode : (Char.ofNat code).val.toNat = code := by
    rw [Char.ofNat, dif_pos h]
    rfl
  simp only [encodeRune, String.utf8EncodeChar, hcode]

theorem byte_eq_ofNat {b : UInt8} {n : Nat} (h : n = b.toNat) : UInt8.ofNat n = b := by
  rw [h, UInt8.ofNat_toNat]

/-- A character of two bytes is encoded as it was decoded. -/
theorem decodeTwo?_encode {b : UInt8} {rest : Bytes} {code : Nat}
    (h : decodeTwo? b rest = some code) : encodeRune code = (b :: rest).take 2 := by
  cases rest with
  | nil => cases h
  | cons c rest =>
    simp only [decodeTwo?, Option.ite_none_right_eq_some, Bool.and_eq_true, decide_eq_true_eq,
      UInt8.le_iff_toNat_le, Option.some.injEq, isContinuation] at h
    obtain ⟨⟨⟨hb, hb'⟩, hc, hc'⟩, hcode⟩ := h
    have hlow : 194 ≤ b.toNat := hb
    have hhigh : b.toNat ≤ 223 := hb'
    have hlow₁ : 128 ≤ c.toNat := hc
    have hhigh₁ : c.toNat ≤ 191 := hc'
    unfold payload at hcode
    rw [encodeRune_eq (.inl (by omega)), if_neg (by omega), if_pos (by omega),
      byte_eq_ofNat (by omega : _ = b.toNat), byte_eq_ofNat (by omega : _ = c.toNat)]
    rfl

/-- A character of three bytes is encoded as it was decoded. -/
theorem decodeThree?_encode {b : UInt8} {rest : Bytes} {code : Nat}
    (h : decodeThree? b rest = some code) : encodeRune code = (b :: rest).take 3 := by
  rcases rest with _ | ⟨c, _ | ⟨d, rest⟩⟩
  · cases h
  · cases h
  · simp only [decodeThree?, Option.ite_none_right_eq_some, Bool.and_eq_true, decide_eq_true_eq,
      UInt8.le_iff_toNat_le, Option.some.injEq, isContinuation, Bool.not_eq_true',
      Bool.and_eq_false_iff, decide_eq_false_iff_not] at h
    obtain ⟨⟨⟨⟨⟨⟨hb, hb'⟩, hc, hc'⟩, hd, hd'⟩, hleast⟩, hpair⟩, hcode⟩ := h
    have hlow : 224 ≤ b.toNat := hb
    have hhigh : b.toNat ≤ 239 := hb'
    have hlow₁ : 128 ≤ c.toNat := hc
    have hhigh₁ : c.toNat ≤ 191 := hc'
    have hlow₂ : 128 ≤ d.toNat := hd
    have hhigh₂ : d.toNat ≤ 191 := hd'
    rw [hcode] at hleast hpair
    unfold payload at hcode
    have hvalid : code.isValidChar := by
      unfold Nat.isValidChar
      omega
    rw [encodeRune_eq hvalid, if_neg (by omega), if_neg (by omega), if_pos (by omega),
      byte_eq_ofNat (by omega : _ = b.toNat), byte_eq_ofNat (by omega : _ = c.toNat),
      byte_eq_ofNat (by omega : _ = d.toNat)]
    rfl

/-- A character of four bytes is encoded as it was decoded. -/
theorem decodeFour?_encode {b : UInt8} {rest : Bytes} {code : Nat}
    (h : decodeFour? b rest = some code) : encodeRune code = (b :: rest).take 4 := by
  rcases rest with _ | ⟨c, _ | ⟨d, _ | ⟨e, rest⟩⟩⟩
  · cases h
  · cases h
  · cases h
  · simp only [decodeFour?, Option.ite_none_right_eq_some, Bool.and_eq_true, decide_eq_true_eq,
      UInt8.le_iff_toNat_le, Option.some.injEq, isContinuation] at h
    obtain ⟨⟨⟨⟨⟨⟨⟨hb, hb'⟩, hc, hc'⟩, hd, hd'⟩, he, he'⟩, hleast⟩, hmost⟩, hcode⟩ := h
    have hlow : 240 ≤ b.toNat := hb
    have hhigh : b.toNat ≤ 244 := hb'
    have hlow₁ : 128 ≤ c.toNat := hc
    have hhigh₁ : c.toNat ≤ 191 := hc'
    have hlow₂ : 128 ≤ d.toNat := hd
    have hhigh₂ : d.toNat ≤ 191 := hd'
    have hlow₃ : 128 ≤ e.toNat := he
    have hhigh₃ : e.toNat ≤ 191 := he'
    rw [hcode] at hleast hmost
    unfold payload at hcode
    rw [encodeRune_eq (.inr ⟨by omega, by omega⟩), if_neg (by omega), if_neg (by omega),
      if_neg (by omega), byte_eq_ofNat (by omega : _ = b.toNat),
      byte_eq_ofNat (by omega : _ = c.toNat), byte_eq_ofNat (by omega : _ = d.toNat),
      byte_eq_ofNat (by omega : _ = e.toNat)]
    rfl

/-- **A character is encoded** as it was decoded. -/
theorem encodeRune_of_decode {b : UInt8} {rest : Bytes} {code size : Nat}
    (h : decodeRune b rest = (.valid code, size)) : encodeRune code = (b :: rest).take size := by
  unfold decodeRune at h
  split at h
  · rename_i hascii
    obtain ⟨hcode, rfl⟩ := Prod.mk.inj h
    obtain rfl := Rune.valid.inj hcode
    have hlt : b.toNat < 128 := hascii
    rw [encodeRune_eq (.inl (by omega)), if_pos (by omega), UInt8.ofNat_toNat]
    rfl
  split at h
  · rename_i htwo
    obtain ⟨hcode, rfl⟩ := Prod.mk.inj h
    exact decodeTwo?_encode (Rune.valid.inj hcode ▸ htwo)
  split at h
  · rename_i hthree
    obtain ⟨hcode, rfl⟩ := Prod.mk.inj h
    exact decodeThree?_encode (Rune.valid.inj hcode ▸ hthree)
  split at h
  · rename_i hfour
    obtain ⟨hcode, rfl⟩ := Prod.mk.inj h
    exact decodeFour?_encode (Rune.valid.inj hcode ▸ hfour)
  · cases h

/-! ## Character by character -/

theorem runesFrom_skip (skip : Nat) (text : Bytes) (h : skip ≤ text.length) :
    runesFrom skip text = runes (text.drop skip) := by
  induction skip generalizing text with
  | zero => rfl
  | succ skip ih =>
    cases text with
    | nil => simp at h
    | cons b rest =>
      simp only [List.length_cons, Nat.add_le_add_iff_right] at h
      rw [runesFrom, ih rest h, List.drop_succ_cons]

@[simp] theorem runes_nil : runes [] = [] := rfl

/-- **The characters of a text**: the first one, and those of the text after it. -/
theorem runes_cons (b : UInt8) (rest : Bytes) :
    runes (b :: rest) =
      ((decodeRune b rest).1, (b :: rest).take (decodeRune b rest).2) ::
        runes ((b :: rest).drop (decodeRune b rest).2) := by
  obtain ⟨hpos, hle⟩ := decodeRune_bounds b rest
  rw [runes, runesFrom]
  generalize decodeRune b rest = found at hpos hle
  obtain ⟨rune, _ | n⟩ := found
  · cases hpos
  · simp only [Nat.add_sub_cancel, List.drop_succ_cons]
    rw [runesFrom_skip n rest (by simpa using hle)]

/-- A text that begins with the bytes of its first character. -/
theorem runes_append_of_decode {b : UInt8} {rest tail : Bytes} {rune : Rune}
    (h : decodeRune b (rest ++ tail) = (rune, rest.length + 1)) :
    runes (b :: rest ++ tail) = (rune, b :: rest) :: runes tail := by
  rw [List.cons_append, runes_cons, h]
  simp

/-- The first character of a text and what comes after it. -/
theorem runes_eq_cons {text : Bytes} {first : Rune × Bytes} {more : List (Rune × Bytes)}
    (h : runes text = first :: more) :
    ∃ b rest tail, text = first.2 ++ tail ∧ first.2 = b :: rest ∧
      decodeRune b (rest ++ tail) = (first.1, rest.length + 1) ∧ runes tail = more := by
  cases text with
  | nil => cases h
  | cons b rest =>
    obtain ⟨hpos, hle⟩ := decodeRune_bounds b rest
    rw [runes_cons] at h
    obtain ⟨hfirst, hmore⟩ := List.cons_eq_cons.mp h
    subst hfirst
    generalize hfound : decodeRune b rest = found at hpos hle hmore
    obtain ⟨rune, _ | n⟩ := found
    · cases hpos
    · have hn : n ≤ rest.length := by simpa using hle
      refine ⟨b, rest.take n, rest.drop n, ?_, rfl, ?_, hmore⟩
      · simp
      · simp [hfound, Nat.min_eq_left hn]

/-- **The characters of a text make up the text.** -/
theorem flatMap_runes (text : Bytes) : (runes text).flatMap (·.2) = text := by
  induction hr : runes text generalizing text with
  | nil =>
    cases text with
    | nil => rfl
    | cons b rest =>
      rw [runes_cons] at hr
      cases hr
  | cons first more ih =>
    obtain ⟨b, rest, tail, rfl, -, -, htail⟩ := runes_eq_cons hr
    rw [List.flatMap_cons, ih tail htail]

/-- The bytes of a character are not empty. -/
theorem ne_nil_of_mem_runes {text : Bytes} {r : Rune × Bytes} (h : r ∈ runes text) : r.2 ≠ [] := by
  induction hr : runes text generalizing text with
  | nil => simp [hr] at h
  | cons first more ih =>
    obtain ⟨b, rest, tail, -, hbytes, -, htail⟩ := runes_eq_cons hr
    rw [hr, List.mem_cons] at h
    rcases h with rfl | h
    · rw [hbytes]
      nofun
    · exact ih (htail ▸ h) htail

/-- **The bytes of a character** are those of its code point. -/
theorem encodeRune_of_mem {text bytes : Bytes} {code : Nat}
    (h : (.valid code, bytes) ∈ runes text) : encodeRune code = bytes := by
  induction hr : runes text generalizing text with
  | nil => simp [hr] at h
  | cons first more ih =>
    obtain ⟨b, rest, tail, -, hbytes, hdecode, htail⟩ := runes_eq_cons hr
    rw [hr, List.mem_cons] at h
    rcases h with rfl | h
    · rw [encodeRune_of_decode hdecode, List.take_succ_cons, List.take_left]
      exact hbytes.symm
    · exact ih (htail ▸ h) htail

/-- **A text cut between two characters** has the characters on either side. -/
theorem runes_of_append {text : Bytes} {xs ys : List (Rune × Bytes)} (h : runes text = xs ++ ys) :
    runes (xs.flatMap (·.2)) = xs ∧ runes (ys.flatMap (·.2)) = ys := by
  induction xs generalizing text with
  | nil =>
    rw [List.nil_append] at h
    subst h
    exact ⟨rfl, by rw [flatMap_runes]⟩
  | cons first xs ih =>
    obtain ⟨b, rest, tail, -, hbytes, hdecode, htail⟩ := runes_eq_cons h
    obtain ⟨hxs, hys⟩ := ih htail
    refine ⟨?_, hys⟩
    have hsplit : tail = xs.flatMap (·.2) ++ ys.flatMap (·.2) := by
      rw [← List.flatMap_append, ← flatMap_runes tail, htail]
      rfl
    rw [hsplit, ← List.append_assoc] at hdecode
    have hown := decodeRune_append b (rest ++ xs.flatMap (·.2)) (ys.flatMap (·.2)) (by
      rw [hdecode, List.length_append]
      omega)
    rw [hdecode] at hown
    rw [List.flatMap_cons, hbytes, runes_append_of_decode hown, hxs, ← hbytes]

/-! ## Blanks -/

namespace Bytes

/-- Whether a text has nothing but blank characters. -/
def isBlank (text : Bytes) : Bool := (runes text).all (·.1.isSpace)

/-- A text whose first byte is an ASCII character other than a blank is not blank. -/
theorem isBlank_cons {b : UInt8} (hb : b < 128) (hs : (Rune.valid b.toNat).isSpace = false)
    (rest : Bytes) : isBlank (b :: rest) = false := by
  rw [isBlank, runes_cons]
  simp [decodeRune, hb, hs]

/-- The bytes of the blanks at the end of a text. -/
theorem trailingSpace_eq (text : Bytes) :
    text.trailingSpace = (((runes text).rtakeWhile (·.1.isSpace)).flatMap (·.2)).length := by
  rw [List.length_flatMap, List.rtakeWhile, List.map_reverse, List.sum_reverse]
  rfl

/-- **A text without the blanks at its end** has the characters up to the last one that is not
blank. -/
theorem trimEnd_eq (text : Bytes) :
    text.trimEnd = ((runes text).rdropWhile (·.1.isSpace)).flatMap (·.2) ∧
      runes text.trimEnd = (runes text).rdropWhile (·.1.isSpace) := by
  have hsplit : (runes text).rdropWhile (·.1.isSpace) ++ (runes text).rtakeWhile (·.1.isSpace) =
      runes text := List.rdropWhile_append_rtakeWhile
  have hbytes := flatMap_runes text
  rw [← hsplit, List.flatMap_append] at hbytes
  have htrim : text.trimEnd = ((runes text).rdropWhile (·.1.isSpace)).flatMap (·.2) := by
    have hlen := congrArg List.length hbytes
    rw [List.length_append] at hlen
    rw [trimEnd, trailingSpace_eq, ← hlen, Nat.add_sub_cancel]
    nth_rewrite 2 [← hbytes]
    exact List.take_left
  exact ⟨htrim, htrim ▸ (runes_of_append hsplit.symm).1⟩

/-- The last character of a text that is not blank, between those before it and the blanks behind
it. -/
structure LastInk (text : Bytes) (before : List (Rune × Bytes)) (r : Rune × Bytes)
    (behind : List (Rune × Bytes)) : Prop where
  split : runes text = before ++ r :: behind
  ink : r.1.isSpace = false
  blank : ∀ s ∈ behind, s.1.isSpace = true

/-- **What ends a text without the blanks at its end** is its last character that is not blank. -/
theorem getLast?_trimEnd {text : Bytes} {r : Rune × Bytes}
    (h : (runes text.trimEnd).getLast? = some r) :
    ∃ before behind, LastInk text before r behind ∧ text.trimEnd = before.flatMap (·.2) ++ r.2 := by
  obtain ⟨htrim, hrunes⟩ := trimEnd_eq text
  obtain ⟨init, hinit⟩ := List.getLast?_eq_some_iff.mp h
  rw [hrunes] at hinit
  refine ⟨init, (runes text).rtakeWhile (·.1.isSpace), ⟨?_, ?_, ?_⟩, ?_⟩
  · rw [List.append_cons, ← hinit, List.rdropWhile_append_rtakeWhile]
  · have hne : (runes text).rdropWhile (·.1.isSpace) ≠ [] := by simp [hinit]
    simpa [hinit] using List.rdropWhile_last_not _ _ hne
  · exact fun s hs => by simpa using List.mem_rtakeWhile_imp hs
  · rw [htrim, hinit, List.flatMap_append, List.flatMap_singleton]

/-- A text of which nothing is left without the blanks at its end is blank. -/
theorem isBlank_of_getLast?_trimEnd {text : Bytes} (h : (runes text.trimEnd).getLast? = none) :
    isBlank text = true := by
  rw [List.getLast?_eq_none_iff, (trimEnd_eq text).2, List.rdropWhile_eq_nil_iff] at h
  exact List.all_eq_true.mpr h

/-- The bytes of the last character that is not blank. -/
theorem LastInk.bytes {text : Bytes} {before behind : List (Rune × Bytes)} {r : Rune × Bytes}
    (h : LastInk text before r behind) :
    text = before.flatMap (·.2) ++ r.2 ++ behind.flatMap (·.2) ∧ r.2 ≠ [] ∧
      isBlank r.2 = false := by
  have hmem : r ∈ runes text := by simp [h.split]
  have hown : runes r.2 = [r] := by
    have hsplit : runes text = (before ++ [r]) ++ behind := by rw [h.split, List.append_cons]
    simpa using (runes_of_append (runes_of_append hsplit).1).2
  refine ⟨?_, ne_nil_of_mem_runes hmem, by simp [isBlank, hown, h.ink]⟩
  rw [← flatMap_runes text, h.split]
  simp

/-- The part of a text between two others. -/
theorem slice_append (before middle behind : Bytes) :
    slice (before ++ middle ++ behind) before.length (before.length + middle.length) = middle := by
  rw [slice, ← List.length_append, List.take_left, List.drop_left]

end Bytes

end Yurin
