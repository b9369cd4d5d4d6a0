import Yurin.Proofs.Text.Boundaries

/-!
# Texts between blanks

`Bytes.trim` counts blanks at both ends of a text and cuts them off. What is left stands between
blanks (`trim_between`), and visible ASCII text that stands between blanks is what is left
(`trim_eq`).
-/

namespace Yurin

/-- A byte that is a character of its own, and not a blank one. -/
def IsVisible (b : UInt8) : Prop := b < 128 ∧ (Rune.valid b.toNat).isSpace = false

/-- The characters of an ASCII text are its bytes. -/
theorem runes_ascii_append {text : Bytes} (h : ∀ b ∈ text, b < 128) (behind : Bytes) :
    runes (text ++ behind) = text.map (fun b => (.valid b.toNat, [b])) ++ runes behind := by
  induction text with
  | nil => rfl
  | cons b rest ih =>
    obtain ⟨hb, hrest⟩ := List.forall_mem_cons.mp h
    have hdecode : decodeRune b ([] ++ (rest ++ behind)) = (.valid b.toNat, 1) := by
      rw [decodeRune, if_pos hb]
    rw [List.cons_append, List.map_cons, List.cons_append, ← ih hrest]
    exact runes_append_of_decode hdecode

namespace Bytes

/-- The bytes of the blanks at the start of a text. -/
theorem leadingSpace_eq (text : Bytes) :
    text.leadingSpace = (((runes text).takeWhile (·.1.isSpace)).flatMap (·.2)).length := by
  rw [List.length_flatMap]
  rfl

/-- **What is left of a text stands between blanks.** -/
theorem trim_between (text : Bytes) :
    ∃ before behind, text = before ++ text.trim ++ behind ∧ isBlank before = true ∧
      isBlank behind = true := by
  obtain ⟨htrim, hrunes⟩ := trimEnd_eq text
  have hends : (runes text).rdropWhile (·.1.isSpace) ++ (runes text).rtakeWhile (·.1.isSpace) =
      runes text := List.rdropWhile_append_rtakeWhile
  have hstarts : (runes text.trimEnd).takeWhile (·.1.isSpace) ++
      (runes text.trimEnd).dropWhile (·.1.isSpace) = runes text.trimEnd :=
    List.takeWhile_append_dropWhile
  refine ⟨((runes text.trimEnd).takeWhile (·.1.isSpace)).flatMap (·.2),
    ((runes text).rtakeWhile (·.1.isSpace)).flatMap (·.2), ?_, ?_, ?_⟩
  · have hbytes := flatMap_runes text
    rw [← hends, List.flatMap_append, ← htrim] at hbytes
    have hinner := flatMap_runes text.trimEnd
    rw [← hstarts, List.flatMap_append] at hinner
    have hkept : text.trim =
        ((runes text.trimEnd).dropWhile (·.1.isSpace)).flatMap (·.2) := by
      rw [trim, leadingSpace_eq]
      nth_rewrite 2 [← hinner]
      exact List.drop_left
    rw [hkept, hinner, hbytes]
  · rw [isBlank, (runes_of_append hstarts.symm).1]
    exact List.all_takeWhile
  · rw [isBlank, (runes_of_append hends.symm).2, List.all_eq_true]
    exact fun r hr => by simpa using List.mem_rtakeWhile_imp hr

/-- **Visible text between blanks is what is left.** -/
theorem trim_eq {before core behind : Bytes} (hbefore : isBlank before = true)
    (hbehind : isBlank behind = true) (hne : core ≠ []) (hcore : ∀ b ∈ core, IsVisible b) :
    (before ++ core ++ behind).trim = core := by
  obtain ⟨chars, hchars⟩ : ∃ chars : List (Rune × Bytes),
      chars = core.map fun b => (.valid b.toNat, [b]) := ⟨_, rfl⟩
  have hink : ∀ r ∈ chars, ¬ r.1.isSpace = true := by
    rw [hchars, List.forall_mem_map]
    exact fun b hb => Bool.not_eq_true _ ▸ (hcore b hb).2
  have hchars_ne : chars ≠ [] := by
    rw [hchars]
    exact fun h => hne (List.map_eq_nil_iff.mp h)
  have hrunes : runes (before ++ core ++ behind) = runes before ++ chars ++ runes behind := by
    have hascii : ∀ b ∈ core, b < 128 := fun b hb => (hcore b hb).1
    obtain ⟨first, rest, rfl⟩ := List.exists_cons_of_ne_nil hne
    have hcut := runes_append_ascii before (hascii first List.mem_cons_self) (rest ++ behind)
    rw [List.append_assoc, List.cons_append, hcut, ← List.cons_append,
      runes_ascii_append hascii, List.append_assoc, hchars]
  have hcore' : chars.flatMap (·.2) = core := by
    rw [hchars, List.flatMap_map]
    exact List.flatMap_singleton' core
  -- the blanks behind go first, up to the last visible character, then those before
  have hend : (runes (before ++ core ++ behind)).rdropWhile (·.1.isSpace) =
      runes before ++ chars := by
    obtain ⟨init, last, rfl⟩ := (List.eq_nil_or_concat' chars).resolve_left hchars_ne
    have hblank : ∀ r ∈ (runes behind).reverse, r.1.isSpace = true := fun r hr =>
      List.all_eq_true.mp hbehind r (List.mem_reverse.mp hr)
    have hlast : ¬ last.1.isSpace = true :=
      hink last (List.mem_append_right init List.mem_cons_self)
    rw [hrunes, List.rdropWhile, List.reverse_append, List.dropWhile_append_of_pos hblank,
      ← List.append_assoc, List.reverse_append, List.reverse_singleton,
      List.singleton_append, List.dropWhile_cons_of_neg (by exact hlast), List.reverse_cons,
      List.reverse_reverse]
  obtain ⟨htrim, hleft⟩ := trimEnd_eq (before ++ core ++ behind)
  rw [hend] at htrim hleft
  have hstart : (runes before ++ chars).takeWhile (·.1.isSpace) = runes before := by
    obtain ⟨first, more, rfl⟩ := List.exists_cons_of_ne_nil hchars_ne
    rw [List.takeWhile_append_of_pos (List.all_eq_true.mp hbefore),
      List.takeWhile_cons_of_neg (by exact hink first List.mem_cons_self), List.append_nil]
  rw [trim, leadingSpace_eq, hleft, hstart, htrim, List.flatMap_append, List.drop_left, hcore']

end Bytes

end Yurin
