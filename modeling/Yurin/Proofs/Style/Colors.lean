import Mathlib.Data.Nat.Digits.Lemmas
import Yurin.Proofs.Text.Numerals
import Yurin.Proofs.Text.Trimming
import Yurin.Style.Color
import Yurin.Text.Ascii

/-!
# Colors written and read

A color is written with as many digits as it needs, and read from more texts than it is written as:
between blanks, with or without the number sign, in capitals or not. `Color.Spells` says which texts
these are, by the values of their digits.

Results:
* `hexNumber?_eq_some_iff`: what digits stand for is the number with their values in base sixteen.
* `exists_hexValues`: the digits that are written are those of the number.
* `Color.parse_eq_ok_iff`: a color is read exactly from a text that spells it.
* `Color.spells_text`: the text of a color spells it.
* `Color.parse_text_and_spelled`: what is written is read again, and what is read, and as what.
-/

namespace Yurin

/-! ## Hexadecimal digits -/

/-- The hexadecimal digits: decimal digits, and the letters from A to F, small or capital. -/
theorem hexValue?_eq_some_iff {b : UInt8} {value : Nat} :
    hexValue? b = some value ↔
      48 ≤ b.toNat ∧ b.toNat ≤ 57 ∧ value = b.toNat - 48 ∨
      97 ≤ b.toNat ∧ b.toNat ≤ 102 ∧ value = b.toNat - 87 ∨
      65 ≤ b.toNat ∧ b.toNat ≤ 70 ∧ value = b.toNat - 55 := by
  have hle (m n : UInt8) : (m ≤ b && b ≤ n) = true ↔ m.toNat ≤ b.toNat ∧ b.toNat ≤ n.toNat := by
    rw [Bool.and_eq_true, decide_eq_true_eq, decide_eq_true_eq, UInt8.le_iff_toNat_le,
      UInt8.le_iff_toNat_le]
  have hdecimal : isDigit b = true ↔ 48 ≤ b.toNat ∧ b.toNat ≤ 57 := hle 48 57
  have hsmall : (97 ≤ b && b ≤ 102) = true ↔ 97 ≤ b.toNat ∧ b.toNat ≤ 102 := hle 97 102
  have hcapital : (65 ≤ b && b ≤ 70) = true ↔ 65 ≤ b.toNat ∧ b.toNat ≤ 70 := hle 65 70
  simp only [hexValue?, hdecimal, hsmall, hcapital]
  split_ifs with h₁ h₂ h₃
  · rw [Option.some.injEq]
    omega
  · rw [Option.some.injEq]
    omega
  · rw [Option.some.injEq]
    omega
  · exact iff_of_false nofun (by omega)

theorem hexValue?_bounds {b : UInt8} {value : Nat} (h : hexValue? b = some value) :
    value < 16 ∧ IsVisible b ∧ b ≠ Ascii.hash := by
  rw [hexValue?_eq_some_iff] at h
  have hhash : b = Ascii.hash → b.toNat = 35 := fun hb => hb ▸ rfl
  refine ⟨by omega, ⟨UInt8.lt_iff_toNat_lt.mpr (?_ : b.toNat < 128), ?_⟩, fun hb => ?_⟩
  · omega
  · simp only [Rune.isSpace, Bool.or_eq_false_iff, Bool.and_eq_false_iff,
      decide_eq_false_iff_not, beq_eq_false_iff_ne]
    omega
  · have := hhash hb
    omega

/-- Digits and their values. -/
theorem exists_hexValue {digits : Bytes} {values : List Nat}
    (h : digits.map hexValue? = values.map some) :
    (∀ b ∈ digits, ∃ v, hexValue? b = some v) ∧ ∀ v ∈ values, v < 16 := by
  constructor
  · intro b hb
    have hmem := List.mem_map_of_mem (f := hexValue?) hb
    rw [h] at hmem
    obtain ⟨v, -, hv⟩ := List.mem_map.mp hmem
    exact ⟨v, hv.symm⟩
  · intro v hv
    have hmem := List.mem_map_of_mem (f := some) hv
    rw [← h] at hmem
    obtain ⟨b, -, hb⟩ := List.mem_map.mp hmem
    exact (hexValue?_bounds hb).1

/-- **What digits stand for** is the number with their values in base sixteen. -/
theorem hexNumber?_eq_some_iff {digits : Bytes} {n : Nat} :
    hexNumber? digits = some n ↔
      ∃ values : List Nat, digits.map hexValue? = values.map some ∧
        n = Nat.ofDigits 16 values.reverse := by
  induction digits using List.reverseRecOn generalizing n with
  | nil =>
    constructor
    · intro h
      exact ⟨[], rfl, (Option.some.inj h).symm⟩
    · rintro ⟨values, hvalues, rfl⟩
      obtain rfl := List.map_eq_nil_iff.mp hvalues.symm
      rfl
  | append_singleton digits b ih =>
    rw [hexNumber?_concat, Option.bind_eq_some_iff]
    constructor
    · rintro ⟨m, hm, hn⟩
      obtain ⟨values, hvalues, rfl⟩ := ih.mp hm
      obtain ⟨value, hvalue, rfl⟩ := Option.map_eq_some_iff.mp hn
      refine ⟨values ++ [value], by simp [hvalues, hvalue], ?_⟩
      rw [List.reverse_append, List.reverse_singleton, List.singleton_append, Nat.ofDigits_cons,
        Nat.add_comm, Nat.mul_comm]
    · rintro ⟨values, hvalues, rfl⟩
      rw [List.map_append] at hvalues
      obtain ⟨init, last, rfl, hinit, hlast⟩ := List.map_eq_append_iff.mp hvalues.symm
      obtain ⟨value, rfl, hvalue⟩ := List.map_eq_singleton_iff.mp hlast
      refine ⟨_, ih.mpr ⟨init, hinit.symm, rfl⟩, ?_⟩
      rw [← hvalue, Option.map_some, List.reverse_append, List.reverse_singleton,
        List.singleton_append, Nat.ofDigits_cons, Nat.add_comm, Nat.mul_comm]

theorem upper_append (first second : Bytes) :
    Color.upper (first ++ second) = Color.upper first ++ Color.upper second := List.map_append

/-- A digit that is written has its value. -/
theorem hexValue?_written : ∀ n < 16, (Color.upper [hexDigit n]).map hexValue? = [some n] := by
  decide

/-- **The digits that are written** are those of the number, as many as there is room for. -/
theorem exists_hexValues (width n : Nat) :
    ∃ values : List Nat, (Color.upper (hexText width n)).map hexValue? = values.map some ∧
      values.length = width ∧ Nat.ofDigits 16 values.reverse = n % 16 ^ width := by
  induction width generalizing n with
  | zero => exact ⟨[], rfl, rfl, by simp [Nat.mod_one]⟩
  | succ width ih =>
    obtain ⟨values, hvalues, hlen, hnumber⟩ := ih (n / 16)
    refine ⟨values ++ [n % 16], ?_, by simp [hlen], ?_⟩
    · rw [hexText, upper_append, List.map_append, hvalues,
        hexValue?_written _ (Nat.mod_lt n (by decide)), List.map_append]
      rfl
    · rw [List.reverse_append, List.reverse_singleton, List.singleton_append, Nat.ofDigits_cons,
        hnumber, Nat.pow_succ', Nat.mod_mul]

namespace Color

/-! ## Spellings -/

/-- A text is some hexadecimal digits, given by their values, behind at most one number sign and
between blanks. -/
def Spells (source : Bytes) (values : List Nat) : Prop :=
  ∃ before mark digits behind : Bytes, source = before ++ (mark ++ digits) ++ behind ∧
    before.isBlank = true ∧ behind.isBlank = true ∧ (mark = [] ∨ mark = [Ascii.hash]) ∧
    digits.map hexValue? = values.map some

/-- The number of a color that is spelled with these digits: without those of alpha it is opaque. -/
def numberOf (values : List Nat) : Nat :=
  (if values.length = 6 then 0xFF000000 else 0) + Nat.ofDigits 16 values.reverse

theorem numberOf_lt {values : List Nat} (hvalues : ∀ v ∈ values, v < 16)
    (hlen : values.length = 6 ∨ values.length = 8) : numberOf values < UInt32.size := by
  have hdigits : ∀ v ∈ values.reverse, v < 16 := fun v hv => hvalues v (List.mem_reverse.mp hv)
  have hlt := Nat.ofDigits_lt_base_pow_length (by decide : 1 < 16) hdigits
  rw [List.length_reverse] at hlt
  unfold numberOf
  rcases hlen with hlen | hlen <;> rw [hlen] at hlt ⊢ <;> norm_num [UInt32.size] at hlt ⊢ <;> omega

/-- The digits behind at most one number sign. -/
theorem digits_of_marked {mark digits : Bytes} (hmark : mark = [] ∨ mark = [Ascii.hash])
    (hdigits : Ascii.hash ∉ digits) :
    (Bytes.dropHead? (utf8 "#") (mark ++ digits)).getD (mark ++ digits) = digits := by
  rcases hmark with rfl | rfl
  · have hhead : (utf8 "#").isPrefixOf digits = false := by
      refine Bool.eq_false_iff.mpr fun h => hdigits ?_
      exact (List.isPrefixOf_iff_prefix.mp h).subset List.mem_cons_self
    rw [List.nil_append, Bytes.dropHead?, hhead]
    rfl
  · rfl

/-- At most one number sign is taken off. -/
theorem exists_mark (text : Bytes) :
    ∃ mark, (mark = [] ∨ mark = [Ascii.hash]) ∧
      text = mark ++ (Bytes.dropHead? (utf8 "#") text).getD text := by
  unfold Bytes.dropHead?
  split
  · rename_i h
    obtain ⟨rest, rfl⟩ := List.isPrefixOf_iff_prefix.mp h
    exact ⟨[Ascii.hash], .inr rfl, rfl⟩
  · exact ⟨[], .inl rfl, rfl⟩

/-- The number that is read of some digits, six of them behind those of full alpha. -/
theorem hexNumber?_full {digits : Bytes} {values : List Nat}
    (hvalues : digits.map hexValue? = values.map some) :
    hexNumber? (if digits.length = 6 then utf8 "FF" ++ digits else digits) =
      some (numberOf values) := by
  have hdigits : digits.length = values.length := by
    simpa using congrArg List.length hvalues
  have halpha : (utf8 "FF").map hexValue? = [15, 15].map some := by decide
  rw [hexNumber?_eq_some_iff, hdigits, numberOf]
  split
  · rename_i hsix
    refine ⟨[15, 15] ++ values, by rw [List.map_append, List.map_append, halpha, hvalues], ?_⟩
    rw [List.reverse_append, Nat.ofDigits_append, List.length_reverse, hsix, Nat.add_comm]
    rfl
  · exact ⟨values, hvalues, Nat.zero_add _⟩

theorem parse_of_spells {source : Bytes} {values : List Nat} (h : Spells source values)
    (hlen : values.length = 6 ∨ values.length = 8) :
    parse source = .ok ⟨(numberOf values).toUInt32⟩ := by
  obtain ⟨before, mark, digits, behind, rfl, hbefore, hbehind, hmark, hvalues⟩ := h
  have hbounds : ∀ b ∈ digits, IsVisible b ∧ b ≠ Ascii.hash := fun b hb => by
    obtain ⟨v, hv⟩ := (exists_hexValue hvalues).1 b hb
    exact (hexValue?_bounds hv).2
  have hdigits : digits.length = values.length := by
    simpa using congrArg List.length hvalues
  have hne : mark ++ digits ≠ [] := fun hnil => by
    rw [(List.append_eq_nil_iff.mp hnil).2, List.length_nil] at hdigits
    omega
  have hvisible : ∀ b ∈ mark ++ digits, IsVisible b := by
    rw [List.forall_mem_append]
    refine ⟨?_, fun b hb => (hbounds b hb).1⟩
    rcases hmark with rfl | rfl
    · exact List.forall_mem_nil _
    · exact List.forall_mem_singleton.mpr ⟨by decide, by decide⟩
  have hfull : (if digits.length = 6 then utf8 "FF" ++ digits else digits).length = 8 := by
    split
    · rename_i hsix
      rw [List.length_append, hsix]
      rfl
    · omega
  simp only [parse, Bytes.trim_eq hbefore hbehind hne hvisible,
    digits_of_marked hmark fun hmem => (hbounds _ hmem).2 rfl, if_pos hfull,
    hexNumber?_full hvalues]

theorem spells_of_parse {source : Bytes} {c : Color} (h : parse source = .ok c) :
    ∃ values, Spells source values ∧ (values.length = 6 ∨ values.length = 8) := by
  obtain ⟨before, behind, hsource, hbefore, hbehind⟩ := source.trim_between
  obtain ⟨mark, hmark, htrim⟩ := exists_mark source.trim
  simp only [parse] at h
  generalize (Bytes.dropHead? (utf8 "#") source.trim).getD source.trim = digits at h htrim
  rw [htrim] at hsource
  generalize hfull : (if digits.length = 6 then utf8 "FF" ++ digits else digits) = full at h
  split at h
  · rename_i height
    cases hnumber : hexNumber? full with
    | none => simp [hnumber] at h
    | some n =>
      obtain ⟨values, hvalues, -⟩ := hexNumber?_eq_some_iff.mp hnumber
      have hcount : values.length = 8 := by
        rw [← height]
        simpa using (congrArg List.length hvalues).symm
      -- the digits of full alpha are not those of the text
      split at hfull
      · rename_i hsix
        rw [← hfull, List.map_append] at hvalues
        obtain ⟨alpha, rest, rfl, -, hrest⟩ := List.map_eq_append_iff.mp hvalues.symm
        have hlen : rest.length = 6 := by
          rw [← hsix]
          simpa using congrArg List.length hrest
        exact ⟨rest, ⟨before, mark, digits, behind, hsource, hbefore, hbehind, hmark, hrest.symm⟩,
          .inl hlen⟩
      · rw [hfull] at hsource
        exact ⟨values, ⟨before, mark, full, behind, hsource, hbefore, hbehind, hmark, hvalues⟩,
          .inr hcount⟩
  · cases h

/-- **A color is read exactly from a text that spells it.** -/
theorem parse_eq_ok_iff {source : Bytes} {c : Color} :
    parse source = .ok c ↔ ∃ values, Spells source values ∧
      (values.length = 6 ∨ values.length = 8) ∧ c.argb.toNat = numberOf values := by
  have hread {values : List Nat} (hspells : Spells source values)
      (hlen : values.length = 6 ∨ values.length = 8) :
      (numberOf values).toUInt32.toNat = numberOf values := by
    obtain ⟨-, -, digits, -, -, -, -, -, hvalues⟩ := hspells
    exact UInt32.toNat_ofNat_of_lt (numberOf_lt (exists_hexValue hvalues).2 hlen)
  constructor
  · intro h
    obtain ⟨values, hspells, hlen⟩ := spells_of_parse h
    rw [parse_of_spells hspells hlen] at h
    obtain rfl := Except.ok.inj h
    exact ⟨values, hspells, hlen, hread hspells hlen⟩
  · rintro ⟨values, hspells, hlen, hnumber⟩
    rw [parse_of_spells hspells hlen]
    congr 2
    rw [← UInt32.toNat_inj, hread hspells hlen, hnumber]

/-- **The text of a color spells it.** -/
theorem spells_text (c : Color) :
    ∃ values, Spells c.text values ∧ (values.length = 6 ∨ values.length = 8) ∧
      c.argb.toNat = numberOf values := by
  have hsize := c.argb.toNat_lt
  have hspells {width : Nat} {values : List Nat} (hwidth : c.text = utf8 "#" ++
      upper (hexText width c.argb.toNat)) (hvalues :
      (upper (hexText width c.argb.toNat)).map hexValue? = values.map some) :
      Spells c.text values :=
    ⟨[], [Ascii.hash], _, [], by rw [hwidth, List.append_nil]; rfl, rfl, rfl, .inr rfl, hvalues⟩
  by_cases halpha : c.alpha = 0xFF
  · obtain ⟨values, hvalues, hlen, hnumber⟩ := exists_hexValues 6 c.argb.toNat
    refine ⟨values, hspells (by rw [text, if_pos halpha]) hvalues, .inl hlen, ?_⟩
    have htop : c.argb.toNat / 2 ^ 24 = 255 := by
      have hbyte := congrArg UInt8.toNat halpha
      rw [alpha, UInt32.toNat_toUInt8, UInt32.toNat_shiftRight, Nat.shiftRight_eq_div_pow] at hbyte
      have hliteral : (24 : UInt32).toNat % 32 = 24 ∧ (0xFF : UInt8).toNat = 255 := ⟨rfl, rfl⟩
      rw [hliteral.1, hliteral.2] at hbyte
      omega
    rw [numberOf, if_pos hlen, hnumber]
    omega
  · obtain ⟨values, hvalues, hlen, hnumber⟩ := exists_hexValues 8 c.argb.toNat
    refine ⟨values, hspells (by rw [text, if_neg halpha]) hvalues, .inr hlen, ?_⟩
    rw [numberOf, if_neg (by omega), hnumber]
    omega

/-- **Colors are written and read alike.** A color is read from its text, and from no text that
does not spell a color with six or eight digits; it then has the number that is spelled. So a text
that is read may be replaced by the text of its color. -/
theorem parse_text_and_spelled :
    (∀ c : Color, parse c.text = .ok c) ∧
    (∀ source, (∃ c, parse source = .ok c) ↔
      ∃ values, Spells source values ∧ (values.length = 6 ∨ values.length = 8)) ∧
    (∀ source c, parse source = .ok c ↔ ∃ values, Spells source values ∧
      (values.length = 6 ∨ values.length = 8) ∧ c.argb.toNat = numberOf values) ∧
    (∀ source c, parse source = .ok c → parse c.text = .ok c) := by
  refine ⟨fun c => parse_eq_ok_iff.mpr (spells_text c), fun source => ⟨?_, ?_⟩,
    fun source c => parse_eq_ok_iff, fun _ c _ => parse_eq_ok_iff.mpr (spells_text c)⟩
  · rintro ⟨c, h⟩
    exact spells_of_parse h
  · rintro ⟨values, h, hlen⟩
    exact ⟨_, parse_of_spells h hlen⟩

/-- A color in small letters between blanks, and the same color as it is written. -/
theorem parse_text_and_spelled_small :
    let c : Color := ⟨0xFFC679DD⟩
    parse (utf8 " c679dd\t") = .ok c ∧ c.text = utf8 "#C679DD" ∧ parse c.text = .ok c := by
  have h : parse (utf8 " c679dd\t") = .ok ⟨0xFFC679DD⟩ := by decide
  exact ⟨h, by decide, parse_text_and_spelled.2.2.2 _ _ h⟩

end Color

end Yurin
