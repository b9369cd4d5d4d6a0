import Mathlib.Data.List.Basic
import Mathlib.Data.List.Induction
import Yurin.Proofs.Text.Splitting
import Yurin.Skeleton.Dump
import Yurin.Text.Ascii

/-!
# Blocks of lines

Records and lists are printed as blocks: a line with an open bracket at its end, the lines inside
moved to the right, and a closing line that is not. What takes one line is a block too, unless it
ends with an open bracket. A block says itself where it ends, however deep it is nested, so blocks
written one below the other are read back (`join_blocks`). What is in a list is thus determined by
the text of the list (`listing_injective`), and the fields of a record by the text of the record
(`record_injective`).
-/

namespace Yurin.Skeleton

open Bytes (splitOn)

/-! ## Lines -/

/-- What an indented line begins with. -/
def margin : Bytes := utf8 "  "

/-- Whether a line ends with an open bracket. -/
def opens (line : Bytes) : Bool :=
  line.getLast? == some Ascii.leftRound || line.getLast? == some Ascii.leftSquare

/-- A block, as its lines. -/
inductive Block : List Bytes → Prop
  | line {line : Bytes} (h : opens line = false) : Block [line]
  | nested {opening closing : Bytes} (hopening : opens opening = true)
      (hclosing : ¬ margin <+: closing) (inner : List Bytes) :
      Block (opening :: (inner.map (margin ++ ·) ++ [closing]))

/-- The first line without a margin ends the lines that have one. -/
theorem margins_split {inner inner' : List Bytes} {line line' : Bytes} (h : ¬ margin <+: line)
    (h' : ¬ margin <+: line') {rest rest' : List Bytes}
    (heq : inner.map (margin ++ ·) ++ line :: rest = inner'.map (margin ++ ·) ++ line' :: rest') :
    inner = inner' ∧ line = line' ∧ rest = rest' := by
  induction inner generalizing inner' with
  | nil =>
    cases inner' with
    | nil => exact ⟨rfl, List.cons.inj heq⟩
    | cons first others => exact absurd ⟨first, (List.cons.inj heq).1.symm⟩ h
  | cons first inner ih =>
    cases inner' with
    | nil => exact absurd ⟨first, (List.cons.inj heq).1⟩ h'
    | cons first' inner' =>
      obtain ⟨hfirst, hothers⟩ := List.cons.inj heq
      obtain ⟨rfl, hrest⟩ := ih hothers
      exact ⟨by rw [List.append_cancel_left hfirst], hrest⟩

namespace Block

variable {a b : List Bytes}

/-- **A block says where it ends**: what follows it does not matter. -/
theorem append_inj (ha : Block a) (hb : Block b) {u v : List Bytes} (h : a ++ u = b ++ v) :
    a = b ∧ u = v := by
  cases ha with
  | line ha =>
    cases hb with
    | line => exact List.append_inj h rfl
    | nested hb =>
      obtain ⟨rfl, -⟩ := List.cons_eq_cons.mp h
      rw [hb] at ha
      cases ha
  | nested ha hclosing inner =>
    cases hb with
    | line hb =>
      obtain ⟨rfl, -⟩ := List.cons_eq_cons.mp h
      rw [ha] at hb
      cases hb
    | nested hb hclosing' inner' =>
      rw [List.cons_append, List.cons_append, List.append_assoc, List.append_assoc] at h
      obtain ⟨rfl, hbehind⟩ := List.cons_eq_cons.mp h
      obtain ⟨rfl, rfl, hrest⟩ := margins_split hclosing hclosing' hbehind
      exact ⟨rfl, hrest⟩

/-- In front of the first line more can stand that does not end with an open bracket. -/
theorem begun {head line : Bytes} (hhead : opens head = false) {lines : List Bytes}
    (h : Block (line :: lines)) : Block ((head ++ line) :: lines) := by
  have hopens : opens (head ++ line) = opens line := by
    cases line using List.reverseRecOn with
    | nil => rw [List.append_nil, hhead]; rfl
    | append_singleton line b =>
      rw [opens, opens, ← List.append_assoc, List.getLast?_concat, List.getLast?_concat]
  cases h with
  | line h => exact .line (hopens.trans h)
  | nested h hclosing inner => exact .nested (hopens.trans h) hclosing inner

end Block

/-! ## Texts that are blocks -/

/-- A text whose lines are a block. -/
def IsBlock (text : Bytes) : Prop := Block (splitOn lineFeed text)

theorem isBlock_line {line : Bytes} (h : lineFeed ∉ line) (hopens : opens line = false) :
    IsBlock line := by
  rw [IsBlock, Bytes.splitOn_eq_singleton h]
  exact .line hopens

theorem IsBlock.begun {head text : Bytes} (hhead : lineFeed ∉ head) (hopens : opens head = false)
    (h : IsBlock text) : IsBlock (head ++ text) := by
  obtain ⟨line, lines, htext, hall⟩ := Bytes.splitOn_begun hhead text
  rw [IsBlock, htext] at h
  rw [IsBlock, hall]
  exact h.begun hopens

/-- **Blocks one below the other are read back.** -/
theorem join_blocks {xs ys : List Bytes} (hx : ∀ x ∈ xs, IsBlock x) (hy : ∀ y ∈ ys, IsBlock y)
    (h : xs.flatMap (splitOn lineFeed) = ys.flatMap (splitOn lineFeed)) : xs = ys := by
  induction xs generalizing ys with
  | nil =>
    cases ys with
    | nil => rfl
    | cons y ys =>
      have hnil := (List.append_eq_nil_iff.mp h.symm).1
      exact absurd hnil (Bytes.splitOn_ne_nil lineFeed y)
  | cons x xs ih =>
    obtain ⟨hfirst, hothers⟩ := List.forall_mem_cons.mp hx
    cases ys with
    | nil =>
      have hnil := (List.append_eq_nil_iff.mp h).1
      exact absurd hnil (Bytes.splitOn_ne_nil lineFeed x)
    | cons y ys =>
      obtain ⟨hfirst', hothers'⟩ := List.forall_mem_cons.mp hy
      obtain ⟨hlines, hrest⟩ := hfirst.append_inj hfirst' h
      rw [Bytes.splitOn_injective lineFeed hlines, ih hothers hothers' hrest]

/-! ## Indented texts -/

theorem indented_line {line : Bytes} (h : lineFeed ∉ line) : indented line = margin ++ line := by
  have hsame : (line.flatMap fun b => if b = lineFeed then utf8 "\n  " else [b]) =
      line.flatMap fun b => [b] :=
    List.flatMap_congr fun b hb => if_neg (ne_of_mem_of_not_mem hb h)
  rw [indented, hsame, List.flatMap_singleton']
  rfl

theorem indented_append (text rest : Bytes) :
    indented (text ++ lineFeed :: rest) = indented text ++ lineFeed :: indented rest := by
  have hfeed : utf8 "\n  " = lineFeed :: utf8 "  " := rfl
  simp [indented, hfeed]

/-- The lines of an indented text are its lines with a margin. -/
theorem splitOn_indented (text : Bytes) :
    splitOn lineFeed (indented text) = (splitOn lineFeed text).map (margin ++ ·) := by
  have hlines {lines : List Bytes} (hne : lines ≠ []) (h : ∀ line ∈ lines, lineFeed ∉ line) :
      splitOn lineFeed (indented (Bytes.join [lineFeed] lines)) = lines.map (margin ++ ·) := by
    induction lines with
    | nil => contradiction
    | cons line rest ih =>
      obtain ⟨hline, hrest⟩ := List.forall_mem_cons.mp h
      have hfirst : splitOn lineFeed (indented line) = [margin ++ line] := by
        rw [indented_line hline, Bytes.splitOn_eq_singleton]
        rw [List.mem_append, not_or]
        exact ⟨by decide, hline⟩
      cases rest with
      | nil => exact hfirst
      | cons next rest =>
        have hjoin : Bytes.join [lineFeed] (line :: next :: rest) =
            line ++ lineFeed :: Bytes.join [lineFeed] (next :: rest) :=
          List.append_assoc line [lineFeed] _
        rw [hjoin, indented_append, Bytes.splitOn_append, hfirst,
          ih (List.cons_ne_nil next rest) hrest]
        rfl
  have htext := hlines (Bytes.splitOn_ne_nil lineFeed text) fun _ h => (Bytes.mem_splitOn h).1
  rwa [Bytes.join_splitOn] at htext

/-! ## Records and lists -/

/-- Items in brackets, one below the other. -/
def bracketed (opening : Bytes) (items : List Bytes) (closing : UInt8) : Bytes :=
  opening ++ lineFeed :: indented (Bytes.join [lineFeed] items) ++ lineFeed :: [closing]

/-- A field of a record with its value. -/
def fieldText (field : String × Bytes) : Bytes := utf8 field.1 ++ utf8 " = " ++ field.2

theorem record_eq (name : String) (fields : List (String × Bytes)) :
    record name fields = bracketed (utf8 name ++ utf8 "(") (fields.map fieldText) 41 := by
  have hopen : utf8 "(\n" = utf8 "(" ++ [lineFeed] := rfl
  have hclose : utf8 "\n)" = [lineFeed, 41] := rfl
  have hfeed : utf8 "\n" = [lineFeed] := rfl
  have hrecord : record name fields = utf8 name ++ utf8 "(\n"
      ++ indented (Bytes.join (utf8 "\n") (fields.map fieldText)) ++ utf8 "\n)" := rfl
  rw [hrecord, hopen, hclose, hfeed, bracketed]
  simp only [List.append_assoc, List.cons_append, List.nil_append]

theorem listing_eq {items : List Bytes} (h : items ≠ []) :
    listing items = bracketed (utf8 "[") items 93 := by
  rw [listing, if_neg (by simpa using h)]
  rfl

section Bracketed

variable {opening opening' : Bytes} {items items' : List Bytes} {closing closing' : UInt8}

theorem splitOn_bracketed (h : lineFeed ∉ opening) (hne : items ≠ []) (hc : closing ≠ lineFeed) :
    splitOn lineFeed (bracketed opening items closing) =
      opening :: ((items.flatMap (splitOn lineFeed)).map (margin ++ ·) ++ [[closing]]) := by
  have hclosing : lineFeed ∉ [closing] := by simpa using Ne.symm hc
  rw [bracketed, Bytes.splitOn_append, Bytes.splitOn_append, Bytes.splitOn_eq_singleton h,
    splitOn_indented, Bytes.splitOn_join hne, Bytes.splitOn_eq_singleton hclosing]
  rfl

theorem not_margin_closing (closing : UInt8) : ¬ margin <+: [closing] := fun h =>
  have hlength : 2 ≤ 1 := h.length_le
  absurd hlength (by decide)

theorem isBlock_bracketed (h : lineFeed ∉ opening) (hopens : opens opening = true)
    (hne : items ≠ []) (hc : closing ≠ lineFeed) : IsBlock (bracketed opening items closing) := by
  rw [IsBlock, splitOn_bracketed h hne hc]
  exact .nested hopens (not_margin_closing closing) _

/-- The opening line and the lines inside are read back. -/
theorem bracketed_lines (h : lineFeed ∉ opening) (h' : lineFeed ∉ opening') (hne : items ≠ [])
    (hne' : items' ≠ []) (hc : closing ≠ lineFeed) (hc' : closing' ≠ lineFeed)
    (heq : bracketed opening items closing = bracketed opening' items' closing') :
    opening = opening' ∧
      items.flatMap (splitOn lineFeed) = items'.flatMap (splitOn lineFeed) := by
  have hlines := congrArg (splitOn lineFeed) heq
  rw [splitOn_bracketed h hne hc, splitOn_bracketed h' hne' hc'] at hlines
  obtain ⟨hopening, hinner⟩ := List.cons.inj hlines
  exact ⟨hopening,
    (margins_split (not_margin_closing closing) (not_margin_closing closing') hinner).1⟩

end Bracketed

@[simp] theorem isBlock_listing (items : List Bytes) : IsBlock (listing items) := by
  by_cases h : items = []
  · subst h
    exact isBlock_line (by decide) (by decide)
  · rw [listing_eq h]
    exact isBlock_bracketed (by decide) (by decide) h (by decide)

/-- **The items of a list are read back** when each of them is a block. -/
theorem listing_injective {xs ys : List Bytes} (hx : ∀ x ∈ xs, IsBlock x)
    (hy : ∀ y ∈ ys, IsBlock y) (h : listing xs = listing ys) : xs = ys := by
  have hempty {items : List Bytes} (h : items ≠ []) : listing items ≠ listing [] := by
    intro heq
    have hfeed : lineFeed ∈ listing items := by simp [listing_eq h, bracketed]
    rw [heq] at hfeed
    exact absurd hfeed (by decide)
  by_cases hxs : xs = []
  · by_cases hys : ys = []
    · rw [hxs, hys]
    · exact absurd (hxs ▸ h.symm) (hempty hys)
  · by_cases hys : ys = []
    · exact absurd (hys ▸ h) (hempty hxs)
    · rw [listing_eq hxs, listing_eq hys] at h
      have hlines := bracketed_lines (by decide) (by decide) hxs hys (by decide) (by decide) h
      exact join_blocks hx hy hlines.2

/-- Items are read back from a list of their texts when these are blocks that tell them apart. -/
theorem listing_map_injective {α : Type} {text : α → Bytes} {xs ys : List α}
    (hblock : ∀ x, IsBlock (text x)) (htext : ∀ x ∈ xs, ∀ y ∈ ys, text x = text y → x = y)
    (h : listing (xs.map text) = listing (ys.map text)) : xs = ys := by
  have hblocks (xs : List α) : ∀ t ∈ xs.map text, IsBlock t :=
    List.forall_mem_map.mpr fun x _ => hblock x
  have htexts := listing_injective (hblocks xs) (hblocks ys) h
  clear h hblocks
  induction xs generalizing ys with
  | nil => exact (List.map_eq_nil_iff.mp htexts.symm).symm
  | cons x xs ih =>
    cases ys with
    | nil => cases htexts
    | cons y ys =>
      obtain ⟨hfirst, hothers⟩ := List.cons.inj htexts
      have hrest := ih (fun x hx y hy => htext x (.tail _ hx) y (.tail _ hy)) hothers
      rw [htext x (.head _) y (.head _) hfirst, hrest]

section Record

variable {name name' : String} {fields fields' : List (String × Bytes)}

theorem lineFeed_mem_record (name : String) (fields : List (String × Bytes)) :
    lineFeed ∈ record name fields := by simp [record_eq, bracketed]

theorem lineFeed_notMem_label (h : lineFeed ∉ utf8 name) :
    lineFeed ∉ utf8 name ++ utf8 "(" := by
  rw [List.mem_append, not_or]
  exact ⟨h, by decide⟩

theorem isBlock_record (h : lineFeed ∉ utf8 name) (hne : fields ≠ []) :
    IsBlock (record name fields) := by
  have hopens : opens (utf8 name ++ utf8 "(") = true := by
    have hopen : utf8 "(" = [Ascii.leftRound] := rfl
    rw [opens, hopen, List.getLast?_concat]
    rfl
  rw [record_eq]
  exact isBlock_bracketed (lineFeed_notMem_label h) hopens (by simpa using hne) (by decide)

/-- Whether fields can be read back: a name takes one line and a value is a block. -/
def AreFields (fields : List (String × Bytes)) : Prop :=
  ∀ field ∈ fields, lineFeed ∉ utf8 field.1 ∧ IsBlock field.2

theorem AreFields.nil : AreFields [] := nofun

theorem AreFields.cons {key : String} {value : Bytes} (hkey : lineFeed ∉ utf8 key)
    (hvalue : IsBlock value) (h : AreFields fields) : AreFields ((key, value) :: fields) :=
  List.forall_mem_cons.mpr ⟨⟨hkey, hvalue⟩, h⟩

theorem AreFields.of_blocks (hkeys : ∀ key ∈ fields.map Prod.fst, lineFeed ∉ utf8 key)
    (hvalues : ∀ value ∈ fields.map Prod.snd, IsBlock value) : AreFields fields :=
  fun _ hfield => ⟨hkeys _ (List.mem_map_of_mem hfield), hvalues _ (List.mem_map_of_mem hfield)⟩

theorem isBlock_fieldText {field : String × Bytes} (h : lineFeed ∉ utf8 field.1)
    (hvalue : IsBlock field.2) : IsBlock (fieldText field) := by
  have hspaced : utf8 " = " = [32, 61] ++ [32] := rfl
  refine hvalue.begun ?_ ?_
  · rw [List.mem_append, not_or]
    exact ⟨h, by decide⟩
  · rw [opens, hspaced, ← List.append_assoc, List.getLast?_concat]
    rfl

theorem fieldTexts_injective (hkeys : fields.map Prod.fst = fields'.map Prod.fst)
    (h : fields.map fieldText = fields'.map fieldText) : fields = fields' := by
  induction fields generalizing fields' with
  | nil => exact (List.map_eq_nil_iff.mp h.symm).symm
  | cons field fields ih =>
    cases fields' with
    | nil => cases h
    | cons field' fields' =>
      obtain ⟨hkey, hkeys⟩ := List.cons.inj hkeys
      obtain ⟨htext, htexts⟩ := List.cons.inj h
      rw [fieldText, fieldText, hkey] at htext
      rw [Prod.ext hkey (List.append_cancel_left htext), ih hkeys htexts]

/-- **A record says what it is a record of.** -/
theorem record_name (heq : record name fields = record name' fields') (h : lineFeed ∉ utf8 name)
    (h' : lineFeed ∉ utf8 name') (hne : fields ≠ []) (hne' : fields' ≠ []) :
    utf8 name = utf8 name' := by
  rw [record_eq, record_eq] at heq
  have hlines := bracketed_lines (lineFeed_notMem_label h) (lineFeed_notMem_label h')
    (by simpa using hne) (by simpa using hne') (by decide) (by decide) heq
  exact List.append_cancel_right hlines.1

/-- **The fields of a record are read back.** -/
theorem record_injective (heq : record name fields = record name fields')
    (h : lineFeed ∉ utf8 name) (hne : fields ≠ [])
    (hkeys : fields.map Prod.fst = fields'.map Prod.fst) (hfields : AreFields fields)
    (hfields' : AreFields fields') : fields = fields' := by
  have hne' : fields' ≠ [] := by
    rintro rfl
    exact hne (List.map_eq_nil_iff.mp hkeys)
  have hblocks {fields : List (String × Bytes)} (h : AreFields fields) :
      ∀ text ∈ fields.map fieldText, IsBlock text :=
    List.forall_mem_map.mpr fun field hf => isBlock_fieldText (h field hf).1 (h field hf).2
  rw [record_eq, record_eq] at heq
  have hlines := bracketed_lines (lineFeed_notMem_label h) (lineFeed_notMem_label h)
    (by simpa using hne) (by simpa using hne') (by decide) (by decide) heq
  exact fieldTexts_injective hkeys (join_blocks (hblocks hfields) (hblocks hfields') hlines.2)

end Record

end Yurin.Skeleton
