import Yurin.Proofs.Engine.Calls
import Yurin.Proofs.Text.Runes
import Yurin.Proofs.Tree.References

/-!
# The spans of highlights

Every pass draws on tokens of the source (`Drawn`): on a token without the blanks around it, on a
name, or under an error. Errors apart, it draws in a category that semantic tokens show. What the
second pass draws is, up to the order, the names of the tree in the roles that their parents give
them (`declaredHighlights_perm`). `mem_highlights` collects all this over the five passes, and
`highlight_inside` is what it means for the answers of an engine: every span is a part of the source
that is not empty, in the style that the theme has for its category.
-/

namespace Yurin

open Skeleton

/-- What a theme draws: a range that is not empty, in the style of the category. -/
theorem Theme.highlight?_eq_some {theme : Theme} {start stop : Int} {c : Category}
    {h : Highlight} : theme.highlight? start stop c = some h ↔
      start < stop ∧ (theme.style c).isPlain = false ∧ h = ⟨start, stop, c, theme.style c⟩ := by
  unfold Theme.highlight?
  split
  · exact ⟨nofun, fun ⟨hlt, _⟩ => absurd hlt (by omega)⟩
  · split
    · rename_i hplain
      exact ⟨nofun, fun ⟨_, hnot, _⟩ => absurd hplain (by simp [hnot])⟩
    · rename_i hle hplain
      constructor
      · rintro ⟨⟩
        exact ⟨Int.lt_of_not_ge hle, Bool.not_eq_true _ ▸ hplain, rfl⟩
      · rintro ⟨-, -, rfl⟩
        rfl

/-! ## Categories -/

/-- The categories that semantic tokens show. -/
def Category.IsShown (c : Category) : Prop := (tokenTypeOf? c).isSome = true

theorem Kind.category?_shown {k : Kind} {c : Category} (h : k.category? = some c) :
    c.IsShown := by
  cases k with
  | mark m => cases m <;> cases h <;> rfl
  | _ => cases h <;> rfl

/-- Only names of implementations would have a category that is not shown. -/
theorem Role.category?_shown {role : Role} {c : Category} (h : role.category? = some c)
    (hrole : role ≠ .declared .impl) : c.IsShown := by
  cases role with
  | declared kind =>
    cases kind with
    | impl => contradiction
    | _ =>
      cases h
      rfl
  | _ => cases h <;> rfl

theorem DeclarationKind.referenceCategory?_shown {kind : DeclarationKind} {c : Category}
    (h : kind.referenceCategory? = some c) : c.IsShown := by
  cases kind <;> cases h <;> rfl

theorem Skeleton.Symbol.parameterCategory?_shown {symbol : Symbol} {c : Category}
    (h : symbol.parameterCategory? = some c) : c.IsShown := by
  cases symbol <;> cases h <;> rfl

/-! ## What is drawn on -/

/-- The ranges of a source that the passes draw on, with the category. -/
inductive Drawn (source : Bytes) : Int → Int → Category → Prop
  /-- A token, without the blanks around it. -/
  | token {t : Token} {c : Category} (ht : t ∈ lex source) (hc : t.kind.category? = some c) :
      Drawn source (t.start + t.text.leadingSpace) (t.stop - t.text.trailingSpace) c
  /-- A name. -/
  | name {t : Token} {c : Category} (ht : t ∈ lex source) (hk : t.kind = .identifier)
      (hc : c.IsShown) : Drawn source t.start t.stop c
  /-- An error. -/
  | underline {d : Diagnostic} {start stop : Int} (hd : d ∈ diagnose source)
      (hr : underlineRange? source d = some (start, stop)) : Drawn source start stop .error

/-- A highlight that the theme draws on such a range. -/
def Highlight.DrawnBy (theme : Theme) (source : Bytes) (h : Highlight) : Prop :=
  theme.highlight? h.start h.stop h.category = some h ∧ Drawn source h.start h.stop h.category

/-- A highlight of a range is drawn on that range. -/
theorem Drawn.highlight {source : Bytes} {start stop : Int} {c : Category} {theme : Theme}
    {h : Highlight} (hd : Drawn source start stop c) (hh : theme.highlight? start stop c = some h) :
    h.DrawnBy theme source := by
  obtain ⟨-, -, rfl⟩ := Theme.highlight?_eq_some.mp hh
  exact ⟨hh, hd⟩

section Passes

variable {theme : Theme} {source : Bytes} {h : Highlight}

/-! ## Names -/

/-- A highlight on a name of the tree of a source. -/
theorem drawnBy_name {t : Token} (ht : .name t ∈ leaves [(parse source).file.node]) {c : Category}
    (hc : c.IsShown) (hh : theme.highlight? t.start t.stop c = some h) :
    h.DrawnBy theme source := by
  obtain ⟨u, hu, hleaf⟩ := mem_leaves_parse ht
  obtain ⟨rfl, hk⟩ := Token.leaf?_name hleaf
  exact (Drawn.name hu hk hc).highlight hh

theorem declaredHighlightsAll_eq (theme : Theme) (nodes : List Node) :
    declaredHighlightsAll theme nodes = nodes.flatMap (declaredHighlights theme) := by
  induction nodes with
  | nil => rfl
  | cons node rest ih => rw [declaredHighlightsAll, ih, List.flatMap_cons]

theorem operandHighlights_eq (theme : Theme) (nodes : List Node) :
    operandHighlights theme nodes =
      (nodes.filter (!·.isInfixFunction)).flatMap (declaredHighlights theme) := by
  induction nodes with
  | nil => rfl
  | cons node rest ih => cases h : node.isInfixFunction <;> simp [operandHighlights, h, ih]

theorem calledHighlights_eq (theme : Theme) (nodes : List Node) :
    calledHighlights theme nodes =
      (nodes.filter (·.isInfixFunction)).flatMap (declaredHighlights theme) := by
  induction nodes with
  | nil => rfl
  | cons node rest ih => cases h : node.isInfixFunction <;> simp [calledHighlights, h, ih]

/-- What the second pass draws on a name. -/
def NameSite.highlight? (theme : Theme) (s : NameSite) : Option Highlight :=
  s.name.highlight? theme s.parent.role

mutual

/-- **What the second pass draws**: the names in the roles that their parents give them. An infix
call only puts its children into another order. -/
theorem declaredHighlights_perm (theme : Theme) : ∀ {parent : Label} {node : Node},
    node.Named parent → (declaredHighlights theme node).Perm
      ((node.nameSites parent).filterMap (NameSite.highlight? theme))
  | parent, .mk label children, hnamed => by
    have hchildren := declaredHighlightsAll_perm theme hnamed.2.2
    cases label with
    | identifier role i =>
      obtain ⟨rfl, -, rfl⟩ := hnamed.2.1 role i rfl
      have hown : (NameSite.mk parent i).highlight? theme = i.highlight? theme parent.role := rfl
      rw [declaredHighlights, Node.nameSites]
      cases h : i.highlight? theme parent.role <;>
        simp [Label.identifier?, nameSitesAll, hown, h]
    | infixCall =>
      have hsplit := List.perm_append_comm.trans
        (List.filter_append_perm Node.isInfixFunction children)
      rw [declaredHighlights, operandHighlights_eq, calledHighlights_eq, ← List.flatMap_append]
      refine (hsplit.flatMap_right _).trans ?_
      rw [← declaredHighlightsAll_eq]
      exact hchildren
    | _ => exact hchildren

theorem declaredHighlightsAll_perm (theme : Theme) : ∀ {parent : Label} {nodes : List Node},
    NamedAll parent nodes → (declaredHighlightsAll theme nodes).Perm
      ((nameSitesAll parent nodes).filterMap (NameSite.highlight? theme))
  | _, [], _ => .nil
  | _, node :: rest, hnamed => by
    rw [declaredHighlightsAll, nameSitesAll, List.filterMap_append]
    exact (declaredHighlights_perm theme hnamed.1).append
      (declaredHighlightsAll_perm theme hnamed.2)

end

/-- The second pass draws on names of the tree. -/
theorem mem_declaredHighlights {file : SourceFile} (hh : h ∈ declaredHighlights theme file.node) :
    ∃ t c, .name t ∈ leaves [file.node] ∧ c.IsShown ∧
      theme.highlight? t.start t.stop c = some h := by
  rw [(declaredHighlights_perm theme file.named).mem_iff] at hh
  obtain ⟨s, hs, hh⟩ := List.mem_filterMap.mp hh
  obtain ⟨c, hrole, hc⟩ := Option.bind_eq_some_iff.mp hh
  exact ⟨s.name.token, c, SourceFile.mem_leaves hs,
    Role.category?_shown hrole (Node.role_ne_impl file.named s hs), hc⟩

theorem mem_matchHighlights {parts : List Identifier} {found : List Match}
    (hh : h ∈ matchHighlights theme parts found) :
    ∃ i ∈ parts, ∃ c, c.IsShown ∧ theme.highlight? i.token.start i.token.stop c = some h := by
  obtain ⟨m, -, hm⟩ := List.mem_filterMap.mp hh
  obtain ⟨c, hkind, hm⟩ := Option.bind_eq_some_iff.mp hm
  obtain ⟨i, hi, hc⟩ := Option.bind_eq_some_iff.mp hm
  exact ⟨i, List.mem_of_getElem? hi, c, DeclarationKind.referenceCategory?_shown hkind, hc⟩

/-- The third pass draws on parts of references. -/
theorem mem_referenceHighlights {file : SourceFile} {package : Package}
    (hh : h ∈ referenceHighlights theme file package) :
    ∃ parts ∈ file.node.references, ∃ i ∈ parts, ∃ c, c.IsShown ∧
      theme.highlight? i.token.start i.token.stop c = some h := by
  obtain ⟨r, hr, hh⟩ := List.mem_flatMap.mp hh
  obtain ⟨parts, hparts, rfl⟩ := List.mem_map.mp hr
  refine ⟨parts, hparts, ?_⟩
  rcases List.mem_append.mp hh with hh | hh
  · exact mem_matchHighlights hh
  · exact mem_matchHighlights hh

/-- Bindings are drawn on parts of references. -/
theorem mem_bindingHighlights {package : Package} {opened : Token → Option (List Scope)}
    {chain : List Scope} {node : Node}
    (hh : h ∈ bindingHighlights theme (bindNode package opened chain node)) :
    ∃ parts ∈ node.references, ∃ i ∈ parts, ∃ c, c.IsShown ∧
      theme.highlight? i.token.start i.token.stop c = some h := by
  obtain ⟨b, hb, hh⟩ := List.mem_filterMap.mp hh
  obtain ⟨c, hsymbol, hc⟩ := Option.bind_eq_some_iff.mp hh
  obtain ⟨parts, hparts, i, hi, htoken⟩ := mem_bindNode hb
  exact ⟨parts, hparts, i, hi, c, Symbol.parameterCategory?_shown hsymbol, htoken ▸ hc⟩

/-! ## All passes -/

/-- **What the highlights of a source are drawn on.** -/
theorem mem_highlights {a : Analysis} (ha : Analysis.of? source = .ok a)
    (hh : h ∈ a.highlights theme) : h.DrawnBy theme source := by
  obtain ⟨hsource, htokens, hfile, hdiagnostics, hbindings⟩ := Analysis.of?_eq_ok ha
  have hpart (hn : ∃ parts ∈ a.file.node.references, ∃ i ∈ parts, ∃ c, c.IsShown ∧
      theme.highlight? i.token.start i.token.stop c = some h) : h.DrawnBy theme source := by
    obtain ⟨parts, hparts, i, hi, c, hshown, hc⟩ := hn
    exact drawnBy_name (hfile ▸ SourceFile.mem_references hparts hi) hshown hc
  rw [Analysis.highlights, hbindings] at hh
  simp only [List.mem_append] at hh
  rcases hh with (((hh | hh) | hh) | hh) | hh
  · obtain ⟨t, ht, hh⟩ := List.mem_filterMap.mp hh
    obtain ⟨c, hc, hh⟩ := Option.bind_eq_some_iff.mp hh
    exact (Drawn.token (htokens ▸ ht) hc).highlight hh
  · obtain ⟨t, c, ht, hshown, hc⟩ := mem_declaredHighlights hh
    exact drawnBy_name (hfile ▸ ht) hshown hc
  · exact hpart (mem_referenceHighlights hh)
  · exact hpart (mem_bindingHighlights hh)
  · obtain ⟨d, hd, hh⟩ := List.mem_filterMap.mp hh
    obtain ⟨⟨start, stop⟩, hr, hh⟩ := Option.bind_eq_some_iff.mp hh
    exact (Drawn.underline (hdiagnostics ▸ hd) (hsource ▸ hr)).highlight hh

end Passes

/-! ## Ranges -/

/-- The range under an error is in the source. -/
theorem underlineRange?_inside {source : Bytes} {d : Diagnostic} {start stop : Int}
    (h : underlineRange? source d = some (start, stop)) : 0 ≤ start ∧ stop ≤ source.length := by
  unfold underlineRange? at h
  dsimp only at h
  split at h
  · obtain ⟨⟨first, last⟩, -, heq⟩ := Option.map_eq_some_iff.mp h
    obtain ⟨rfl, rfl⟩ := Prod.mk.inj heq
    omega
  · obtain ⟨rfl, rfl⟩ := Prod.mk.inj (Option.some.inj h)
    omega

/-- **The passes draw inside the source.** -/
theorem Drawn.inside {source : Bytes} {start stop : Int} {c : Category}
    (h : Drawn source start stop c) : 0 ≤ start ∧ stop ≤ source.length := by
  have hwithin {t : Token} (ht : t ∈ lex source) : 0 ≤ t.start ∧ t.stop ≤ source.length := by
    obtain ⟨before, behind, hw, -⟩ := mem_lex ht
    have hlen := congrArg List.length hw.split
    simp only [List.length_append] at hlen
    rw [hw.start, hw.stop]
    omega
  cases h with
  | token ht hc =>
    have := hwithin ht
    omega
  | name ht hk hc => exact hwithin ht
  | underline hd hr => exact underlineRange?_inside hr

/-- **Highlighting stays inside the source.** Whatever calls an engine has got before, a call with
enough patience returns the highlights of any source. Every span that a call returns is a part of
the source that is not empty, and has the theme's style for its category, which is not plain. -/
theorem Engine.highlight_inside {κ : Type} [DecidableEq κ] {e : Engine κ} (he : e.Reachable)
    (source : Bytes) :
    (∃ found, e.eval none (e.highlight source) = .ok found) ∧
      ∀ patience spans diagnostics,
        e.eval patience (e.highlight source) = .ok (spans, diagnostics) →
          ∀ h ∈ spans, 0 ≤ h.start ∧ h.start < h.stop ∧ h.stop ≤ source.length ∧
            h.style = e.theme.style h.category ∧ h.style.isPlain = false := by
  have hserves := e.highlight_serves source
  refine ⟨(serves_run hserves he.faithful none).2.2, fun patience spans diagnostics heq h hh => ?_⟩
  obtain ⟨a, ha, hfound⟩ := (serves_run hserves he.faithful patience).2.1 _ heq
  obtain ⟨rfl, rfl⟩ := Prod.mk.inj hfound
  obtain ⟨hdrawn, hrange⟩ := mem_highlights ha hh
  obtain ⟨hlt, hplain, hstyle⟩ := Theme.highlight?_eq_some.mp hdrawn
  obtain ⟨hstart, hstop⟩ := hrange.inside
  refine ⟨hstart, hlt, hstop, ?_, ?_⟩
  · rw [hstyle]
  · rw [hstyle]
    exact hplain

/-- An engine with a cache, after a call that was abandoned, on a source that is not valid UTF-8. -/
theorem Engine.highlight_inside_invalid :
    let e := (Engine.create .default 2).after (some 3) (.highlight (utf8 "/*"))
    let source := utf8 "val data A(x : A" ++ [255]
    (∃ found, e.eval none (e.highlight source) = .ok found) ∧
      ∀ patience spans diagnostics,
        e.eval patience (e.highlight source) = .ok (spans, diagnostics) →
          ∀ h ∈ spans, 0 ≤ h.start ∧ h.start < h.stop ∧ h.stop ≤ source.length ∧
            h.style = e.theme.style h.category ∧ h.style.isPlain = false :=
  Engine.highlight_inside (.after (Engine.create_reachable .default 2) _ _) _

end Yurin
