import Yurin.Proofs.Highlight.Spans

/-!
# A theme only selects and restyles

The passes look at the theme only where they draw a range. What they draw, and in which order, is
chosen without the theme: a pass is a list of strokes, ranges with a category, and a theme draws
those of them that it styles (`Painted`). Everything the passes are made of keeps to this: what one
name or token is drawn as, one after the other, and pass after pass.

A theme that styles every category draws every stroke that is not empty. So the highlights of any
other theme can be read off those of such a theme, without the source (`Theme.redraw`).

* `Analysis.highlights_painted`: all passes over a source are strokes.
* `Painted.redraw`: in another theme, strokes are selected and restyled.
* `Engine.highlight_restyles`: so are the answers of an engine, with the same diagnostics.
-/

namespace Yurin

open Skeleton

/-! ## Strokes -/

/-- A range to draw as a category. -/
structure Stroke where
  start : Int
  stop : Int
  category : Category

namespace Theme

/-- The highlight of a stroke, if the theme styles it. -/
def draw (t : Theme) (s : Stroke) : Option Highlight := t.highlight? s.start s.stop s.category

/-- The theme styles every category that can be styled. -/
def StylesAll (t : Theme) : Prop := ∀ c ∈ Category.all, (t.style c).isPlain = false

instance (t : Theme) : Decidable t.StylesAll :=
  inferInstanceAs (Decidable (∀ c ∈ Category.all, (t.style c).isPlain = false))

/-- The highlights of another theme in this one: those that it styles, in its styles. -/
def redraw (t : Theme) (spans : List Highlight) : List Highlight :=
  (spans.filter fun h => !(t.style h.category).isPlain).map fun h =>
    { h with style := t.style h.category }

theorem redraw_append (t : Theme) (xs ys : List Highlight) :
    t.redraw (xs ++ ys) = t.redraw xs ++ t.redraw ys := by
  rw [redraw, List.filter_append, List.map_append]
  rfl

/-- A stroke that another theme styles is drawn again, or left out. -/
theorem redraw_draw (t : Theme) {full : Theme} {s : Stroke}
    (h : (full.style s.category).isPlain = false) :
    t.redraw (full.draw s).toList = (t.draw s).toList := by
  unfold draw highlight?
  rw [h]
  split
  · rfl
  · cases hplain : (t.style s.category).isPlain <;> simp [redraw, hplain]

theorem redraw_filterMap (t : Theme) {full : Theme} {strokes : List Stroke}
    (h : ∀ s ∈ strokes, (full.style s.category).isPlain = false) :
    t.redraw (strokes.filterMap full.draw) = strokes.filterMap t.draw := by
  simp only [List.filterMap_eq_flatMap_toList]
  induction strokes with
  | nil => rfl
  | cons s rest ih =>
    obtain ⟨hs, hrest⟩ := List.forall_mem_cons.mp h
    rw [List.flatMap_cons, List.flatMap_cons, redraw_append, redraw_draw t hs, ih hrest]

end Theme

/-! ## Passes are strokes -/

/-- **The pass is a list of strokes**, which it chooses without the theme. -/
def Painted (pass : Theme → List Highlight) : Prop :=
  ∃ strokes : List Stroke, (∀ s ∈ strokes, s.category ∈ Category.all) ∧
    ∀ theme, pass theme = strokes.filterMap theme.draw

/-- **In another theme, what a pass draws is selected and restyled.** -/
theorem Painted.redraw {pass : Theme → List Highlight} (h : Painted pass) (t : Theme) {full : Theme}
    (hfull : full.StylesAll) : pass t = t.redraw (pass full) := by
  obtain ⟨strokes, hall, hpass⟩ := h
  rw [hpass, hpass, Theme.redraw_filterMap t fun s hs => hfull _ (hall s hs)]

theorem painted_nil : Painted fun _ => [] := ⟨[], List.forall_mem_nil _, fun _ => rfl⟩

theorem Painted.append {f g : Theme → List Highlight} (hf : Painted f) (hg : Painted g) :
    Painted fun theme => f theme ++ g theme := by
  obtain ⟨xs, hxs, hf⟩ := hf
  obtain ⟨ys, hys, hg⟩ := hg
  refine ⟨xs ++ ys, List.forall_mem_append.mpr ⟨hxs, hys⟩, fun theme => ?_⟩
  rw [List.filterMap_append, ← hf, ← hg]

theorem painted_highlight? (start stop : Int) {c : Category} (hc : c ∈ Category.all) :
    Painted fun theme => (theme.highlight? start stop c).toList := by
  refine ⟨[⟨start, stop, c⟩], by simpa using hc, fun theme => ?_⟩
  rw [List.filterMap_eq_flatMap_toList, List.flatMap_singleton]
  rfl

section Lists

variable {α : Type}

theorem painted_flatMap {xs : List α} {f : Theme → α → List Highlight}
    (h : ∀ x ∈ xs, Painted (f · x)) : Painted fun theme => xs.flatMap (f theme) := by
  induction xs with
  | nil => exact painted_nil
  | cons x rest ih =>
    obtain ⟨hx, hrest⟩ := List.forall_mem_cons.mp h
    exact hx.append (ih hrest)

theorem painted_filterMap {xs : List α} {f : Theme → α → Option Highlight}
    (h : ∀ x ∈ xs, Painted fun theme => (f theme x).toList) :
    Painted fun theme => xs.filterMap (f theme) := by
  simp only [List.filterMap_eq_flatMap_toList]
  exact painted_flatMap h

/-- What is drawn depends on something that may be missing. -/
theorem painted_bind {x : Option α} {f : Theme → α → Option Highlight}
    (h : ∀ a ∈ x, Painted fun theme => (f theme a).toList) :
    Painted fun theme => (x.bind (f theme)).toList := by
  cases x with
  | none => exact painted_nil
  | some a => exact h a rfl

end Lists

/-! ## The passes -/

/-- What semantic tokens show can be styled. -/
theorem Category.IsShown.mem_all {c : Category} (h : c.IsShown) : c ∈ Category.all := by
  cases c with
  | none => cases h
  | unlisted code => cases h
  | _ => decide

theorem lexicalHighlights_painted (tokens : List Token) :
    Painted fun theme => lexicalHighlights theme tokens := by
  refine painted_filterMap fun t _ => painted_bind fun c hc => ?_
  exact painted_highlight? _ _ (Kind.category?_shown hc).mem_all

mutual

/-- By recursion on the tree; an infix call only puts its children into another order. -/
theorem declaredHighlights_painted :
    ∀ {parent : Label} {node : Node}, node.Named parent →
      Painted fun theme => declaredHighlights theme node
  | _, .mk label children, hnamed => by
    have hchildren := namedAll_painted hnamed.2.2
    cases label with
    | identifier role i =>
      simp only [declaredHighlights]
      refine painted_bind fun c hc => painted_highlight? _ _ (Role.category?_shown hc ?_).mem_all
      exact (hnamed.2.1 role i rfl).2.1
    | infixCall =>
      simp only [declaredHighlights, operandHighlights_eq, calledHighlights_eq]
      refine .append (painted_flatMap fun node hnode => ?_) (painted_flatMap fun node hnode => ?_)
      · exact hchildren node (List.mem_filter.mp hnode).1
      · exact hchildren node (List.mem_filter.mp hnode).1
    | _ =>
      simp only [declaredHighlights, declaredHighlightsAll_eq]
      exact painted_flatMap hchildren

theorem namedAll_painted :
    ∀ {parent : Label} {nodes : List Node}, NamedAll parent nodes →
      ∀ node ∈ nodes, Painted fun theme => declaredHighlights theme node
  | _, [], _, _, hnode => by cases hnode
  | _, first :: rest, hnamed, node, hnode => by
    rcases List.mem_cons.mp hnode with heq | hnode
    · exact heq ▸ declaredHighlights_painted hnamed.1
    · exact namedAll_painted hnamed.2 node hnode

end

theorem matchHighlights_painted (parts : List Identifier) (found : List Match) :
    Painted fun theme => matchHighlights theme parts found := by
  refine painted_filterMap fun m _ => painted_bind fun c hc => painted_bind fun part _ => ?_
  exact painted_highlight? _ _ (DeclarationKind.referenceCategory?_shown hc).mem_all

theorem referenceHighlights_painted (file : SourceFile) (package : Package) :
    Painted fun theme => referenceHighlights theme file package :=
  painted_flatMap fun r _ =>
    (matchHighlights_painted r.parts r.fromTop).append (matchHighlights_painted r.parts r.qualified)

theorem bindingHighlights_painted (bindings : List Binding) :
    Painted fun theme => bindingHighlights theme bindings := by
  refine painted_filterMap fun b _ => painted_bind fun c hc => ?_
  exact painted_highlight? _ _ (Symbol.parameterCategory?_shown hc).mem_all

theorem errorHighlights_painted (source : Bytes) (diagnostics : List Diagnostic) :
    Painted fun theme => errorHighlights theme source diagnostics := by
  refine painted_filterMap fun d _ => painted_bind fun range _ => ?_
  exact painted_highlight? range.1 range.2 (by decide)

/-- **All passes over a source are strokes.** -/
theorem Analysis.highlights_painted (a : Analysis) : Painted fun theme => a.highlights theme := by
  have hlexical := lexicalHighlights_painted a.tokens
  have hdeclared := declaredHighlights_painted a.file.named
  have hreferences := referenceHighlights_painted a.file a.package
  have hbindings := bindingHighlights_painted a.bindings
  have herrors := errorHighlights_painted a.source a.diagnostics
  exact (((hlexical.append hdeclared).append hreferences).append hbindings).append herrors

/-! ## Answers -/

namespace Engine

variable {κ κ' : Type} [DecidableEq κ] [DecidableEq κ']

/-- **A theme only selects and restyles.** Take any two engines in use, one of them with a theme
that styles every category. Both answer a patient caller. Whenever both answer, the highlights of
the other one are those of this one in categories that its theme styles, in the same order, ranges
and categories, and with the styles of its theme. The diagnostics are the same. -/
theorem highlight_restyles {e : Engine κ} {full : Engine κ'} (he : e.Reachable)
    (hfull : full.Reachable) (hstyles : full.theme.StylesAll) (source : Bytes) :
    (∃ found, e.eval none (e.highlight source) = .ok found) ∧
      (∃ found, full.eval none (full.highlight source) = .ok found) ∧
      ∀ patience patience' spans spans' diagnostics diagnostics',
        e.eval patience (e.highlight source) = .ok (spans, diagnostics) →
        full.eval patience' (full.highlight source) = .ok (spans', diagnostics') →
          spans = e.theme.redraw spans' ∧ diagnostics = diagnostics' := by
  have hserves := e.highlight_serves source
  have hserves' := full.highlight_serves source
  refine ⟨(serves_run hserves he.faithful none).2.2, (serves_run hserves' hfull.faithful none).2.2,
    fun patience patience' spans spans' diagnostics diagnostics' heq heq' => ?_⟩
  obtain ⟨a, ha, hfound⟩ := (serves_run hserves he.faithful patience).2.1 _ heq
  obtain ⟨a', ha', hfound'⟩ := (serves_run hserves' hfull.faithful patience').2.1 _ heq'
  obtain rfl : a = a' := Except.ok.inj (ha.symm.trans ha')
  obtain ⟨rfl, rfl⟩ := Prod.mk.inj hfound
  obtain ⟨rfl, rfl⟩ := Prod.mk.inj hfound'
  exact ⟨a.highlights_painted.redraw e.theme hstyles, rfl⟩

/-- A theme for keywords and type parameters, beside one for everything, on a source with an error
at its end. -/
theorem highlight_restyles_sparse :
    let keyword := Style.slanted 0xFF0000FF
    let parameter := Style.underlined 0xFF00FF00
    let e := create ((Theme.empty.insert .keyword keyword).insert .typeParameter parameter) 1
    let source := utf8 "data A<T>(x: T"
    Theme.default.StylesAll ∧ ∃ spans diagnostics,
      standard.eval none (standard.highlight source) = .ok (spans, diagnostics) ∧
        spans.length = 9 ∧ e.eval none (e.highlight source) =
          .ok ([⟨0, 4, .keyword, keyword⟩, ⟨13, 14, .typeParameter, parameter⟩], diagnostics) := by
  intro keyword parameter e source
  have he : e.Reachable := create_reachable _ 1
  have hstandard : standard.Reachable := create_reachable .default 0
  have hstyles : Theme.default.StylesAll := by decide
  obtain ⟨⟨⟨drawn, diagnostics⟩, hdrawn⟩, ⟨⟨spans, diagnostics'⟩, hspans⟩, hrestyled⟩ :=
    highlight_restyles he hstandard hstyles source
  obtain ⟨rfl, rfl⟩ := hrestyled none none drawn spans diagnostics diagnostics' hdrawn hspans
  obtain ⟨a, ha, hfound⟩ :=
    (serves_run (standard.highlight_serves source) hstandard.faithful none).2.1 _ hspans
  obtain ⟨rfl, rfl⟩ := Prod.mk.inj hfound
  have hlists : (Analysis.of? source).map (fun a =>
      ((a.highlights .default).length, e.theme.redraw (a.highlights .default))) =
      .ok (9, [⟨0, 4, .keyword, keyword⟩, ⟨13, 14, .typeParameter, parameter⟩]) := by
    decide +kernel
  rw [ha] at hlists
  obtain ⟨hlength, hredraw⟩ := Prod.mk.inj (Except.ok.inj hlists)
  exact ⟨hstyles, _, _, hspans, hlength, hredraw ▸ hdrawn⟩

end Engine

end Yurin
