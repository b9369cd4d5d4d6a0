import Yurin.Proofs.Highlight.Ranges
import Yurin.Proofs.Highlight.Restyling
import Yurin.Proofs.Parser.Names

/-!
# Sites of names and references do not meet

What the passes do with a name is decided by the node that the name stands directly below. The
second pass draws on the names below declarations, parameters, local variables, arguments and infix
calls (`Label.marks`), the third pass and the bindings on those below references.

* `NameSite.highlight?_isOn`, `NameSite.exists_highlight?`: the second pass draws on the names that
  are marked, and in a theme that styles all categories it draws on each of them.
* `nameSites_apart`: no token is a name at two sites, and no two of them meet, also where the parser
  recovered from errors.
* `declaredHighlights_once`, `declaredHighlights_apart`: so no token is drawn on twice.

Result: `declaredHighlights_sites`.
-/

namespace Yurin

open Skeleton

/-! ## Names that are marked -/

/-- Whether the name directly below a node is the name that the node introduces, that of an argument
or that of an infix function. -/
def Label.marks : Label → Bool
  | .declaration .. | .parameter _ | .variableStatement | .argument | .infixCall => true
  | _ => false

/-- The names that the nodes above them mark. -/
def SourceFile.markedNames (f : SourceFile) : List Identifier :=
  (f.nameSites.filter (·.parent.marks)).map NameSite.name

theorem SourceFile.names_eq_nameSites (f : SourceFile) :
    f.names = f.nameSites.map (·.name.token) :=
  f.names_eq.trans (namesOf_leaves .file f.node)

theorem Label.marks_iff (label : Label) : label.marks = true ↔ label.role ≠ .other := by
  cases label <;> simp [marks, role]

theorem Label.isReference_of_marks {label : Label} (h : label.marks = true) :
    label.isReference = false := by
  cases label <;> first | rfl | cases h

/-! ## Highlights of the second pass -/

/-- The highlight is on a token, from its beginning to its end. -/
def Highlight.IsOn (h : Highlight) (t : Token) : Prop := h.start = t.start ∧ h.stop = t.stop

instance (h : Highlight) (t : Token) : Decidable (h.IsOn t) :=
  inferInstanceAs (Decidable (h.start = t.start ∧ h.stop = t.stop))

theorem Theme.isOn_of_highlight? {theme : Theme} {t : Token} {c : Category} {h : Highlight}
    (hh : theme.highlight? t.start t.stop c = some h) : h.IsOn t ∧ h.start < h.stop := by
  obtain ⟨hlt, -, rfl⟩ := Theme.highlight?_eq_some.mp hh
  exact ⟨⟨rfl, rfl⟩, hlt⟩

/-- The second pass draws on a name that is marked, all of it. -/
theorem NameSite.highlight?_isOn {theme : Theme} {s : NameSite} {h : Highlight}
    (hh : s.highlight? theme = some h) :
    s.parent.marks = true ∧ h.IsOn s.name.token ∧ h.start < h.stop := by
  obtain ⟨c, hc, hh⟩ := Option.bind_eq_some_iff.mp hh
  refine ⟨(Label.marks_iff _).mpr fun hother => ?_, Theme.isOn_of_highlight? hh⟩
  rw [hother] at hc
  cases hc

/-- A theme that styles all categories draws on every name that is marked. -/
theorem NameSite.exists_highlight? {theme : Theme} (htheme : theme.StylesAll) {s : NameSite}
    (hmarks : s.parent.marks = true) (himpl : s.parent.role ≠ .declared .impl)
    (hlt : s.name.token.start < s.name.token.stop) : ∃ h, s.highlight? theme = some h := by
  obtain ⟨c, hc⟩ : ∃ c, s.parent.role.category? = some c := by
    cases hrole : s.parent.role with
    | other => exact absurd hrole ((Label.marks_iff _).mp hmarks)
    | _ => exact ⟨_, rfl⟩
  have hplain := htheme c (Role.category?_shown hc himpl).mem_all
  exact ⟨_, Option.bind_eq_some_iff.mpr ⟨c, hc, Theme.highlight?_eq_some.mpr ⟨hlt, hplain, rfl⟩⟩⟩

/-! ## The names of a source -/

section Source

variable {source : Bytes} {s s' : NameSite}

theorem mem_nameSites_parse (hs : s ∈ (parse source).file.nameSites) :
    s.name.token ∈ lex source ∧ s.name.token.kind = .identifier := by
  refine mem_parse_names ?_
  rw [SourceFile.names_eq_nameSites]
  exact List.mem_map_of_mem hs

theorem nameSites_ordered (source : Bytes) : (parse source).file.nameSites.Pairwise fun s s' =>
    s.name.token.stop ≤ s'.name.token.start := by
  have hnames := parse_names_apart source
  rwa [SourceFile.names_eq_nameSites, List.pairwise_map] at hnames

/-- Two names of a source do not meet. -/
theorem nameSites_apart (hs : s ∈ (parse source).file.nameSites)
    (hs' : s' ∈ (parse source).file.nameSites) (hne : s ≠ s') :
    s.name.token.stop ≤ s'.name.token.start ∨ s'.name.token.stop ≤ s.name.token.start :=
  apart_of_pairwise (nameSites_ordered source) hs hs' hne

theorem mem_markedNames {file : SourceFile} {i : Identifier} :
    i ∈ file.markedNames ↔ ∃ s ∈ file.nameSites, s.parent.marks = true ∧ s.name = i := by
  simp [SourceFile.markedNames, and_assoc]

/-- What the second pass draws on. -/
theorem exists_site_of_declared {theme : Theme} {file : SourceFile} {h : Highlight}
    (hh : h ∈ declaredHighlights theme file.node) :
    ∃ s ∈ file.nameSites, s.parent.marks = true ∧ h.IsOn s.name.token := by
  rw [(declaredHighlights_perm theme file.named).mem_iff] at hh
  obtain ⟨s, hs, hh⟩ := List.mem_filterMap.mp hh
  obtain ⟨hmarks, hon, -⟩ := NameSite.highlight?_isOn hh
  exact ⟨s, hs, hmarks, hon⟩

end Source

theorem countP_le_one {α : Type} {p : α → Bool} {xs : List α}
    (h : xs.Pairwise fun a b => ¬ (p a = true ∧ p b = true)) : xs.countP p ≤ 1 := by
  induction xs with
  | nil => exact Nat.zero_le 1
  | cons a xs ih =>
    obtain ⟨hfirst, hrest⟩ := List.pairwise_cons.mp h
    cases ha : p a with
    | false =>
      rw [List.countP_cons_of_neg (by simp [ha])]
      exact ih hrest
    | true =>
      have hnone : xs.countP p = 0 := List.countP_eq_zero.mpr fun b hb hp => hfirst b hb ⟨ha, hp⟩
      rw [List.countP_cons_of_pos ha, hnone]

/-- The second pass draws at most once on a token. -/
theorem declaredHighlights_once (theme : Theme) (source : Bytes) (t : Token) :
    ((declaredHighlights theme (parse source).file.node).countP fun h => h.IsOn t) ≤ 1 := by
  rw [(declaredHighlights_perm theme (parse source).file.named).countP_eq]
  refine countP_le_one (List.Pairwise.filterMap _ ?_ (nameSites_ordered source))
  intro s s' hle g hg h hh hboth
  obtain ⟨-, hgs, hlt⟩ := NameSite.highlight?_isOn hg
  obtain ⟨-, hhs, -⟩ := NameSite.highlight?_isOn hh
  obtain ⟨hgt, hht⟩ := hboth.imp of_decide_eq_true of_decide_eq_true
  have hstart : g.start = h.start := hgt.1.trans hht.1.symm
  have hstop : g.stop ≤ h.start := hgs.2 ▸ hhs.1 ▸ hle
  omega

/-- The second pass does not draw on parts of references. -/
theorem declaredHighlights_apart {theme : Theme} {source : Bytes} {h r : Highlight}
    (hh : h ∈ declaredHighlights theme (parse source).file.node)
    (hr : ∃ parts ∈ (parse source).file.node.references, ∃ i ∈ parts, ∃ c, c.IsShown ∧
      theme.highlight? i.token.start i.token.stop c = some r) :
    h.stop ≤ r.start ∨ r.stop ≤ h.start := by
  obtain ⟨s, hs, hmarks, hon⟩ := exists_site_of_declared hh
  obtain ⟨parts, hparts, i, hi, c, -, hdrawn⟩ := hr
  obtain ⟨s', hs', hreference, rfl⟩ := exists_site_of_part hparts hi
  have hon' := (Theme.isOn_of_highlight? hdrawn).1
  have hne : s ≠ s' := by
    rintro rfl
    rw [Label.isReference_of_marks hmarks] at hreference
    cases hreference
  rw [hon.1, hon.2, hon'.1, hon'.2]
  exact nameSites_apart hs hs' hne

/-- **Spans on the marked names of a source** and nowhere else. -/
structure MarksNames (theme : Theme) (source : Bytes) (spans : List Highlight) : Prop where
  /-- The names that are marked are names of the source. -/
  names : ∀ i ∈ (parse source).file.markedNames, i.token ∈ lex source ∧ i.token.kind = .identifier
  only : ∀ h ∈ spans, ∃ i ∈ (parse source).file.markedNames, h.IsOn i.token
  once : ∀ t, (spans.countP fun h => h.IsOn t) ≤ 1
  all : theme.StylesAll →
    ∀ i ∈ (parse source).file.markedNames, (spans.countP fun h => h.IsOn i.token) = 1
  /-- No span meets one of the third pass or one of a binding, whatever package the references are
  followed in. -/
  apart : ∀ h ∈ spans, ∀ (package : Package) (index : Index) (root : Scope),
    ∀ r ∈ referenceHighlights theme (parse source).file package
        ++ bindingHighlights theme (bind (parse source).file package index root)
        ++ bindingHighlights theme (bindForeign (parse source).file package root),
      h.stop ≤ r.start ∨ r.stop ≤ h.start

/-- **Sites of names and references do not meet.** In every theme the second pass draws at most one
span on a token, and only on a name that is declared, or that of a value parameter, a local variable
or an argument, or that of an infix function; in a theme that styles all categories it draws one on
each of them in the tree. The third pass and the bindings draw elsewhere. -/
theorem declaredHighlights_sites (theme : Theme) (source : Bytes) :
    MarksNames theme source (declaredHighlights theme (parse source).file.node) := by
  refine ⟨fun i hi => ?_, fun h hh => ?_, declaredHighlights_once theme source,
    fun htheme i hi => ?_, fun h hh package index root r hr => ?_⟩
  · obtain ⟨s, hs, -, rfl⟩ := mem_markedNames.mp hi
    exact mem_nameSites_parse hs
  · obtain ⟨s, hs, hmarks, hon⟩ := exists_site_of_declared hh
    exact ⟨s.name, mem_markedNames.mpr ⟨s, hs, hmarks, rfl⟩, hon⟩
  · obtain ⟨s, hs, hmarks, rfl⟩ := mem_markedNames.mp hi
    obtain ⟨hsource, hk⟩ := mem_nameSites_parse hs
    obtain ⟨h, hh⟩ := NameSite.exists_highlight? htheme hmarks
      (Node.role_ne_impl (parse source).file.named s hs) (start_lt_stop hsource (by simp [hk]))
    have hmem : h ∈ declaredHighlights theme (parse source).file.node :=
      (declaredHighlights_perm theme (parse source).file.named).mem_iff.mpr
        (List.mem_filterMap.mpr ⟨s, hs, hh⟩)
    have hon : decide (h.IsOn s.name.token) = true :=
      decide_eq_true (NameSite.highlight?_isOn hh).2.1
    exact Nat.le_antisymm (declaredHighlights_once theme source s.name.token)
      (List.countP_pos_iff.mpr ⟨h, hmem, hon⟩)
  · refine declaredHighlights_apart hh ?_
    rcases List.mem_append.mp hr with hr | hr
    · rcases List.mem_append.mp hr with hr | hr
      · exact mem_referenceHighlights hr
      · exact mem_bindingHighlights hr
    · exact mem_bindingHighlights hr

/-- A method, its parameter, a local variable, an infix function and an argument. -/
theorem declaredHighlights_sites_infix :
    let source := utf8 "fun T.f(x : T) \x7b val y = a g k(b = x) \x7d"
    let names := (parse source).file.markedNames
    let spans := declaredHighlights .default (parse source).file.node
    names.map Identifier.name = [utf8 "f", utf8 "x", utf8 "y", utf8 "g", utf8 "b"] ∧
      ∀ i ∈ names, (spans.countP fun h => h.IsOn i.token) = 1 := by
  refine ⟨by decide +kernel, fun i hi => ?_⟩
  exact (declaredHighlights_sites .default _).all (by decide) i hi

end Yurin
