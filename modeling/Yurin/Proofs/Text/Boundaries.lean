import Yurin.Proofs.Text.Runes

/-!
# Boundaries between characters

An offset of a text is a boundary when the characters of the text are those before it and those
behind it. Not every offset is one, and in text that is not valid UTF-8 a byte can belong to
different characters depending on what is cut off; but ASCII bytes never belong to a longer
character, so there are boundaries around each of them.

Results:
* `boundary_before_ascii`, `boundary_after_ascii`: both sides of an ASCII byte are boundaries.
* `Boundary.trimEnd`: between two boundaries, so is the end of what is not blank.
* `utf16Length_slice`: between boundaries, UTF-16 lengths add up.
* `utf16Length_bounds`: a text has not more UTF-16 units than bytes, and some if it has any.
-/

namespace Yurin

/-- The characters of the text are those before the offset and those behind it. -/
def Boundary (text : Bytes) (i : Nat) : Prop :=
  runes text = runes (text.take i) ++ runes (text.drop i)

theorem boundary_zero (text : Bytes) : Boundary text 0 := rfl

theorem boundary_length (text : Bytes) : Boundary text text.length := by
  simp [Boundary]

/-- Between two characters of a text there is a boundary. -/
theorem boundary_of_runes {text : Bytes} {xs ys : List (Rune × Bytes)}
    (h : runes text = xs ++ ys) : Boundary text (xs.flatMap (·.2)).length := by
  obtain ⟨hxs, hys⟩ := runes_of_append h
  have htext : text = xs.flatMap (·.2) ++ ys.flatMap (·.2) := by
    rw [← List.flatMap_append, ← h, flatMap_runes]
  have htake : text.take (xs.flatMap (·.2)).length = xs.flatMap (·.2) := by
    rw [htext, List.take_left]
  have hdrop : text.drop (xs.flatMap (·.2)).length = ys.flatMap (·.2) := by
    rw [htext, List.drop_left]
  rw [Boundary, htake, hdrop, hxs, hys, h]

/-! ## Two boundaries -/

/-- No characters take no bytes. -/
theorem eq_nil_of_flatMap_runes {text : Bytes} {xs : List (Rune × Bytes)} (h : xs ⊆ runes text)
    (hnil : xs.flatMap (·.2) = []) : xs = [] := by
  cases xs with
  | nil => rfl
  | cons r rest =>
    have hempty := List.flatMap_eq_nil_iff.mp hnil r List.mem_cons_self
    exact absurd hempty (ne_nil_of_mem_runes (h List.mem_cons_self))

/-- **What stands between two boundaries** has characters of its own. -/
theorem Boundary.runes_take {text : Bytes} {i j : Nat} (hi : Boundary text i)
    (hj : Boundary text j) (hij : i ≤ j) :
    runes (text.take j) = runes (text.take i) ++ runes (text.slice i j) := by
  have htake : text.take j = text.take i ++ text.slice i j := by
    have hi : text.take i = (text.take j).take i := by rw [List.take_take, Nat.min_eq_left hij]
    rw [hi, Bytes.slice, List.take_append_drop]
  have hsplit : runes (text.take i) ++ runes (text.drop i) =
      runes (text.take j) ++ runes (text.drop j) := hi.symm.trans hj
  -- of two beginnings of the list of characters, the shorter one begins the longer one
  rcases List.append_eq_append_iff.mp hsplit with ⟨zs, hzs, -⟩ | ⟨zs, hzs, -⟩
  · have hbytes := congrArg (List.flatMap (·.2)) hzs
    rw [List.flatMap_append, flatMap_runes, flatMap_runes, htake] at hbytes
    rw [hzs, List.append_cancel_left hbytes, (runes_of_append hzs).2]
  · have hbytes := congrArg (List.flatMap (·.2)) hzs
    rw [List.flatMap_append, flatMap_runes, flatMap_runes, htake, List.append_assoc] at hbytes
    have hempty : text.slice i j ++ zs.flatMap (·.2) = [] := by
      simpa using hbytes.symm
    obtain ⟨hslice, hzs'⟩ := List.append_eq_nil_iff.mp hempty
    have hsub : zs ⊆ runes (text.take i) := hzs ▸ List.subset_append_right _ _
    rw [hzs, eq_nil_of_flatMap_runes hsub hzs', hslice]
    simp

/-- A boundary of the part between two boundaries is one of the text. -/
theorem Boundary.within {text : Bytes} {i j : Nat} (hi : Boundary text i) (hj : Boundary text j)
    (hij : i ≤ j) {xs ys : List (Rune × Bytes)} (h : runes (text.slice i j) = xs ++ ys)
    (hlen : i ≤ text.length) : Boundary text (i + (xs.flatMap (·.2)).length) := by
  have hrunes : runes text = (runes (text.take i) ++ xs) ++ (ys ++ runes (text.drop j)) := by
    rw [hj, hi.runes_take hj hij, h]
    simp
  have hboundary := boundary_of_runes hrunes
  rwa [List.flatMap_append, flatMap_runes, List.length_append, List.length_take,
    Nat.min_eq_left hlen] at hboundary

/-- The end of what is not blank, between two boundaries, is a boundary. -/
theorem Boundary.trimEnd {text : Bytes} {i j : Nat} (hi : Boundary text i) (hj : Boundary text j)
    (hij : i ≤ j) (hlen : j ≤ text.length) :
    Boundary text (j - (text.slice i j).trailingSpace) := by
  have hsplit : (runes (text.slice i j)).rdropWhile (·.1.isSpace) ++
      (runes (text.slice i j)).rtakeWhile (·.1.isSpace) = runes (text.slice i j) :=
    List.rdropWhile_append_rtakeWhile
  have hboundary := hi.within hj hij hsplit.symm (Nat.le_trans hij hlen)
  have hbytes := congrArg List.length (flatMap_runes (text.slice i j))
  rw [← hsplit, List.flatMap_append, List.length_append, ← Bytes.trailingSpace_eq, Bytes.slice,
    List.length_drop, List.length_take, Nat.min_eq_left hlen, ← Bytes.slice] at hbytes
  have hend : i + ((runes (text.slice i j)).rdropWhile (·.1.isSpace) |>.flatMap (·.2)).length =
      j - (text.slice i j).trailingSpace := by omega
  rwa [hend] at hboundary

/-! ## ASCII bytes -/

theorem isContinuation_ascii {b : UInt8} (hb : b < 128) : isContinuation b = false := by
  have : b.toNat < 128 := hb
  simp only [isContinuation, Bool.and_eq_false_iff, decide_eq_false_iff_not,
    UInt8.le_iff_toNat_le]
  exact .inl (Nat.not_le.mpr this)

/-- A character ends before an ASCII byte that follows its first byte. -/
theorem decodeRune_before_ascii (x : UInt8) (text : Bytes) {b : UInt8} (hb : b < 128)
    (behind : Bytes) : (decodeRune x (text ++ b :: behind)).2 ≤ text.length + 1 := by
  have hno := isContinuation_ascii hb
  unfold decodeRune
  split
  · simp
  split
  · rename_i h
    cases text with
    | nil => simp [decodeTwo?, hno] at h
    | cons => simp
  split
  · rename_i h
    rcases text with _ | ⟨c, _ | ⟨d, rest⟩⟩
    · cases behind <;> simp [decodeThree?, hno] at h
    · simp [decodeThree?, hno] at h
    · simp
  split
  · rename_i h
    rcases text with _ | ⟨c, _ | ⟨d, _ | ⟨e, rest⟩⟩⟩
    · rcases behind with _ | ⟨_, _ | ⟨_, _⟩⟩ <;> simp [decodeFour?, hno] at h
    · cases behind <;> simp [decodeFour?, hno] at h
    · simp [decodeFour?, hno] at h
    · simp
  · simp

theorem runes_append_ascii (text : Bytes) {b : UInt8} (hb : b < 128) (behind : Bytes) :
    runes (text ++ b :: behind) = runes text ++ runes (b :: behind) := by
  induction hn : text.length using Nat.strongRecOn generalizing text with
  | _ n ih =>
    subst hn
    cases text with
    | nil => rfl
    | cons x rest =>
      have hsize := decodeRune_before_ascii x rest hb behind
      obtain ⟨hpos, -⟩ := decodeRune_bounds x (rest ++ b :: behind)
      rw [List.cons_append, runes_cons, runes_cons x rest, decodeRune_append x rest _ hsize]
      generalize decodeRune x (rest ++ b :: behind) = found at hsize hpos
      have hle : found.2 ≤ (x :: rest).length := hsize
      rw [← List.cons_append, List.take_append_of_le_length hle, List.drop_append_of_le_length hle,
        ih _ (by rw [List.length_drop]; simp only [List.length_cons]; omega) _ rfl,
        List.cons_append]

/-- **There is a boundary before an ASCII byte.** -/
theorem boundary_before_ascii (before : Bytes) {b : UInt8} (hb : b < 128) (behind : Bytes) :
    Boundary (before ++ b :: behind) before.length := by
  rw [Boundary, List.take_left, List.drop_left]
  exact runes_append_ascii before hb behind

/-- **There is a boundary after an ASCII byte.** -/
theorem boundary_after_ascii (before : Bytes) {b : UInt8} (hb : b < 128) (behind : Bytes) :
    Boundary (before ++ b :: behind) (before.length + 1) := by
  have hrune (rest : Bytes) : runes (b :: rest) = (.valid b.toNat, [b]) :: runes rest := by
    rw [runes_cons]
    simp [decodeRune, hb]
  have hsplit : runes (before ++ b :: behind) =
      (runes before ++ [(.valid b.toNat, [b])]) ++ runes behind := by
    rw [runes_append_ascii before hb, hrune]
    simp
  have hboundary := boundary_of_runes hsplit
  rwa [List.flatMap_append, flatMap_runes, List.length_append] at hboundary

/-! ## UTF-16 lengths -/

theorem total_cons (n : Nat) (numbers : List Nat) : total (n :: numbers) = n + total numbers := rfl

theorem total_append (xs ys : List Nat) : total (xs ++ ys) = total xs + total ys := by
  induction xs with
  | nil => exact (Nat.zero_add _).symm
  | cons x xs ih => rw [List.cons_append, total_cons, total_cons, ih, Nat.add_assoc]

namespace Bytes

/-- **Between boundaries, UTF-16 lengths add up.** -/
theorem utf16Length_slice {text : Bytes} {i j : Nat} (hi : Boundary text i) (hj : Boundary text j)
    (hij : i ≤ j) :
    utf16Length (text.take j) = utf16Length (text.take i) + utf16Length (text.slice i j) := by
  rw [utf16Length, hi.runes_take hj hij, List.map_append, total_append]
  rfl

/-- A character that takes two UTF-16 units has more than one byte. -/
theorem utf16Size_le (b : UInt8) (rest : Bytes) :
    0 < (decodeRune b rest).1.utf16Size ∧
      (decodeRune b rest).1.utf16Size ≤ (decodeRune b rest).2 := by
  have hle (r : Rune) : 0 < r.utf16Size ∧ r.utf16Size ≤ 2 := by
    unfold Rune.utf16Size
    split <;> simp
  have hascii : (Rune.valid b.toNat).utf16Size = 1 := by
    have := b.toNat_lt
    exact if_neg (by simp only [Rune.code]; omega)
  refine ⟨(hle _).1, ?_⟩
  unfold decodeRune
  split
  · exact Nat.le_of_eq hascii
  split
  · exact (hle _).2
  split
  · exact Nat.le_succ_of_le (hle _).2
  split
  · exact Nat.le_succ_of_le (Nat.le_succ_of_le (hle _).2)
  · exact Nat.le_refl 1

/-- **UTF-16 units and bytes**: not more units than bytes, and some where there are bytes. -/
theorem utf16Length_bounds (text : Bytes) :
    text.utf16Length ≤ text.length ∧ (text ≠ [] → 0 < text.utf16Length) := by
  induction hn : text.length using Nat.strongRecOn generalizing text with
  | _ n ih =>
    subst hn
    cases text with
    | nil => exact ⟨Nat.le_refl 0, fun h => absurd rfl h⟩
    | cons b rest =>
      obtain ⟨hpos, hle⟩ := decodeRune_bounds b rest
      obtain ⟨hsome, hsize⟩ := utf16Size_le b rest
      have hmore := ih _ (by rw [List.length_drop]; simp only [List.length_cons]; omega)
        ((b :: rest).drop (decodeRune b rest).2) rfl
      simp only [utf16Length, runes_cons, List.map_cons, total_cons, List.length_drop,
        List.length_cons] at hmore ⊢
      omega

end Bytes

end Yurin
