import Mathlib.Logic.Relation
import Yurin.Proofs.SemanticTokens.Kept

/-!
# Which highlights are kept

Highlights of any ranges compete for the text: those that are not empty and have a token type
(`Competes`). Flattening goes through them from left to right. One that meets a later highlight
which is kept at that time is dropped, and otherwise it takes the place of all those that it meets.
`keep_cases` says so of one span, `Flattened` is what holds after some of them, `keep_flattened` is
the step and `foldl_flattened` the whole run.

Results:
* `keptHighlights_pairwise`: the highlights that are kept stand one behind the other.
* `kept_of_unmet`: a highlight that no later one meets is kept.
* `dropped_outdone`: a highlight that is dropped loses to a later one that meets it, which may lose
  in turn; from loser to winner there is a way to one that is kept. It meets the dropped one, or
  begins behind it.

The one that is kept need not meet the one that is dropped: `dropped_unmet` is a flight of three
stairs of which only the last is kept.
-/

namespace Yurin

/-- Two highlights have a byte in common. -/
def Highlight.Meets (h g : Highlight) : Prop := max h.start g.start < min h.stop g.stop

instance (h g : Highlight) : Decidable (h.Meets g) := inferInstanceAs (Decidable (_ < _))

/-- The highlight with a number is not empty, and its category has a token type. -/
structure Competes (highlights : List Highlight) (i : Nat) (h : Highlight) : Prop where
  get : highlights[i]? = some h
  start_lt : h.start < h.stop
  shown : h.category.IsShown

/-- A later highlight meets this one. -/
def Outdone (highlights : List Highlight) (loser winner : Nat × Highlight) : Prop :=
  Competes highlights winner.1 winner.2 ∧ loser.1 < winner.1 ∧ loser.2.Meets winner.2

namespace SemanticToken

/-- The highlights that are kept, with their numbers, in the order of the text. -/
def keptHighlights (highlights : List Highlight) : List (Nat × Highlight) :=
  (keptSpans highlights).filterMap fun s => highlights[s.order]?.map fun h => (s.order, h)

/-! ## One span -/

/-- A span comes later among the highlights than another that it meets. -/
structure Span.LosesTo (s t : Span) : Prop where
  order_lt : s.order < t.order
  start_lt : s.start < t.stop
  lt_stop : t.start < s.stop

/-- A span loses to one of some spans. -/
def Span.LosesIn (xs : List Span) (s t : Span) : Prop := t ∈ xs ∧ s.LosesTo t

/-- **What becomes of a span**: it is dropped for a later one that reaches over its start, or put
in front of what it leaves of the others, which are all earlier than it. -/
theorem keep_cases (kept : List Span) (s : Span) :
    keep kept s = kept ∧ (∃ k ∈ kept, s.start < k.stop ∧ s.order < k.order) ∨
      keep kept s = s :: kept.dropWhile (fun k => s.start < k.stop) ∧
        ∀ k ∈ kept, k ∉ kept.dropWhile (fun k => s.start < k.stop) → k.order ≤ s.order := by
  have hsplit := List.takeWhile_append_dropWhile (p := fun k => s.start < k.stop) (l := kept)
  have hdrop := congrArg (List.drop (kept.takeWhile fun k => s.start < k.stop).length) hsplit
  rw [List.drop_left] at hdrop
  cases hlater : (kept.takeWhile fun k => s.start < k.stop).any fun k => s.order < k.order with
  | true =>
    left
    obtain ⟨k, hk, horder⟩ := List.any_eq_true.mp hlater
    have hreach := List.mem_takeWhile_imp hk
    simp only [decide_eq_true_eq] at horder hreach
    refine ⟨?_, k, List.takeWhile_subset _ hk, hreach, horder⟩
    rw [keep, hlater, if_pos rfl]
  | false =>
    right
    refine ⟨?_, fun k hk hleft => ?_⟩
    · rw [keep, hlater, if_neg Bool.false_ne_true, ← hdrop]
    · rw [← hsplit, List.mem_append] at hk
      have hnot := List.any_eq_false.mp hlater k (hk.resolve_right hleft)
      simpa using hnot

/-! ## All spans -/

/-- What holds after some spans: those that are kept, the last one first, do not meet, and from
every other one there is a way to one that is kept. -/
structure Flattened (xs kept : List Span) : Prop where
  subset : ∀ k ∈ kept, k ∈ xs
  apart : kept.Pairwise fun k g => g.stop ≤ k.start
  outdone : ∀ x ∈ xs, x ∉ kept → ∃ k ∈ kept,
    Relation.TransGen (Span.LosesIn xs) x k ∧ (x.LosesTo k ∨ x.stop ≤ k.start)

/-- What a new span needs of those before it: it does not begin before them. -/
structure Span.Follows (s x : Span) : Prop where
  start_lt : x.start < x.stop
  start_le : x.start ≤ s.start
  order_ne : x.order ≠ s.order

section Step

variable {xs kept : List Span} {s : Span}

/-- A way leads to later highlights. -/
theorem order_lt_of_way {x k : Span} (h : Relation.TransGen (Span.LosesIn xs) x k) :
    x.order < k.order := by
  induction h with
  | single hloses => exact hloses.2.order_lt
  | tail _ hloses ih => exact ih.trans hloses.2.order_lt

/-- More spans leave the ways that there are. -/
theorem way_append {x k : Span} (h : Relation.TransGen (Span.LosesIn xs) x k) :
    Relation.TransGen (Span.LosesIn (xs ++ [s])) x k :=
  h.lift id fun _ _ ⟨ht, hloses⟩ => ⟨List.mem_append_left _ ht, hloses⟩

/-- **One more span.** -/
theorem keep_flattened (h : Flattened xs kept) (hs : s.start < s.stop)
    (hfollows : ∀ x ∈ xs, s.Follows x) : Flattened (xs ++ [s]) (keep kept s) := by
  have hlast : s ∈ xs ++ [s] := List.mem_append_right _ (List.mem_singleton_self s)
  rcases keep_cases kept s with ⟨hkeep, k, hk, hreach, horder⟩ | ⟨hkeep, hearlier⟩
  · -- the new span is dropped
    rw [hkeep]
    have hfollow := hfollows k (h.subset k hk)
    have hmeets := hfollow.start_le
    have hloses : s.LosesTo k := ⟨horder, hreach, by omega⟩
    refine ⟨fun g hg => List.mem_append_left _ (h.subset g hg), h.apart, fun x hx hdropped => ?_⟩
    rcases List.mem_append.mp hx with hx | hx
    · obtain ⟨g, hg, hway, hend⟩ := h.outdone x hx hdropped
      exact ⟨g, hg, way_append hway, hend⟩
    · rw [List.mem_singleton.mp hx]
      exact ⟨k, hk, .single ⟨List.mem_append_left _ (h.subset k hk), hloses⟩, .inl hloses⟩
  · -- the new span takes the place of all that reach over its start
    rw [hkeep]
    have hleft := mem_dropWhile_apart s.start h.apart
      fun k hk => (hfollows k (h.subset k hk)).start_lt
    have hloses (k : Span) (hk : k ∈ kept)
        (hout : k ∉ kept.dropWhile fun k => s.start < k.stop) : k.LosesTo s := by
      have hfollow := hfollows k (h.subset k hk)
      have hle := hearlier k hk hout
      have hne := hfollow.order_ne
      have hstart := hfollow.start_le
      have hreach : ¬ k.stop ≤ s.start := fun hle => hout ((hleft k).mpr ⟨hk, hle⟩)
      exact ⟨by omega, by omega, by omega⟩
    refine ⟨?_, ?_, fun x hx hdropped => ?_⟩
    · intro k hk
      rcases List.mem_cons.mp hk with rfl | hk
      · exact hlast
      · exact List.mem_append_left _ (h.subset k ((hleft k).mp hk).1)
    · refine List.pairwise_cons.mpr ⟨fun g hg => ((hleft g).mp hg).2, ?_⟩
      exact h.apart.sublist (List.dropWhile_sublist _)
    · obtain ⟨hne, hout⟩ := not_or.mp (List.mem_cons.not.mp hdropped)
      have hx : x ∈ xs := (List.mem_append.mp hx).resolve_right (by simpa using hne)
      by_cases hkept : x ∈ kept
      · have hlose := hloses x hkept hout
        exact ⟨s, List.mem_cons_self, .single ⟨hlast, hlose⟩, .inl hlose⟩
      · obtain ⟨k, hk, hway, hend⟩ := h.outdone x hx hkept
        by_cases hstays : k ∈ kept.dropWhile fun k => s.start < k.stop
        · exact ⟨k, List.mem_cons_of_mem _ hstays, way_append hway, hend⟩
        · -- the winner so far loses to the new span, which does not begin before `x`
          have hmore := (way_append hway).tail ⟨hlast, hloses k hk hstays⟩
          refine ⟨s, List.mem_cons_self, hmore, ?_⟩
          have hstart := (hfollows x hx).start_le
          rcases Int.lt_or_le s.start x.stop with hlt | hle
          · exact .inl ⟨order_lt_of_way hmore, by omega, hlt⟩
          · exact .inr hle

/-- **All spans, one after the other.** -/
theorem foldl_flattened (hsome : ∀ x ∈ xs, x.start < x.stop)
    (hfollows : xs.Pairwise fun x s => s.Follows x) : Flattened xs (xs.foldl keep []) := by
  induction xs using List.reverseRecOn with
  | nil => exact ⟨nofun, List.Pairwise.nil, nofun⟩
  | append_singleton xs s ih =>
    obtain ⟨hxs, -, hlast⟩ := List.pairwise_append.mp hfollows
    obtain ⟨hsome, hs⟩ := List.forall_mem_append.mp hsome
    rw [List.foldl_append, List.foldl_cons, List.foldl_nil]
    refine keep_flattened (ih hsome hxs) (hs s (List.mem_singleton_self s)) fun x hx => ?_
    exact hlast x hx s (List.mem_singleton_self s)

/-- A span that loses to no other is kept. -/
theorem Flattened.mem_of_unmet (h : Flattened xs kept) {x : Span} (hx : x ∈ xs)
    (hunmet : ∀ t ∈ xs, ¬ x.LosesTo t) : x ∈ kept := by
  by_contra hout
  obtain ⟨k, -, hway, -⟩ := h.outdone x hx hout
  obtain ⟨t, ⟨ht, hloses⟩, -⟩ := Relation.TransGen.head'_iff.mp hway
  exact hunmet t ht hloses

end Step

/-! ## Highlights -/

section Highlights

variable {highlights : List Highlight} {i : Nat} {h : Highlight}

/-- The highlights that compete are those that have a span. -/
theorem competes_iff : Competes highlights i h ↔
    highlights[i]? = some h ∧ ∃ s, span? i h = some s := by
  constructor
  · rintro ⟨hget, hlt, hshown⟩
    obtain ⟨found, htype⟩ := Option.isSome_iff_exists.mp hshown
    exact ⟨hget, ⟨h.start, h.stop, i, found.1, found.2⟩,
      span?_eq_some.mpr ⟨hlt, htype, rfl, rfl, rfl⟩⟩
  · rintro ⟨hget, s, hs⟩
    obtain ⟨hlt, htype, -⟩ := span?_eq_some.mp hs
    exact ⟨hget, hlt, Option.isSome_iff_exists.mpr ⟨_, htype⟩⟩

/-- The spans of highlights follow one another: no two have one number. -/
theorem spans_follow (highlights : List Highlight) :
    (spans highlights).Pairwise fun x s => s.Follows x := by
  have hdistinct : ((highlights.mapIdx span?).filterMap id).Pairwise
      fun x s => x.order ≠ s.order := by
    rw [List.pairwise_filterMap, List.pairwise_iff_getElem]
    intro i j hi hj hij x hx s hs
    rw [List.getElem_mapIdx] at hx hs
    rw [(span?_eq_some.mp hx).2.2.2.2, (span?_eq_some.mp hs).2.2.2.2]
    exact Nat.ne_of_lt hij
  have hnumbers := (List.mergeSort_perm ((highlights.mapIdx span?).filterMap id)
    fun a b => a.start ≤ b.start).pairwise_iff (fun h => h.symm) |>.mpr hdistinct
  refine ((spans_pairwise highlights).and hnumbers).imp_of_mem fun {x s} hx _ ⟨hsorted, hne⟩ => ?_
  obtain ⟨i, h, -, hspan⟩ := mem_spans.mp hx
  obtain ⟨hlt, -, hstart, hstop, -⟩ := span?_eq_some.mp hspan
  exact ⟨by omega, by omega, hne⟩

theorem spans_flattened (highlights : List Highlight) :
    Flattened (spans highlights) ((spans highlights).foldl keep []) := by
  refine foldl_flattened (fun s hs => ?_) (spans_follow highlights)
  obtain ⟨i, h, -, hspan⟩ := mem_spans.mp hs
  obtain ⟨hlt, -, hstart, hstop, -⟩ := span?_eq_some.mp hspan
  rwa [hstart, hstop]

/-- The highlight of a span. -/
theorem exists_highlight {s : Span} (hs : s ∈ spans highlights) :
    ∃ h, highlights[s.order]? = some h ∧ span? s.order h = some s := by
  obtain ⟨i, h, hget, hspan⟩ := mem_spans.mp hs
  obtain ⟨-, -, -, -, rfl⟩ := span?_eq_some.mp hspan
  exact ⟨h, hget, hspan⟩

theorem mem_spans_of_mem_keptSpans {s : Span} (hs : s ∈ keptSpans highlights) :
    s ∈ spans highlights :=
  (spans_flattened highlights).subset s (List.mem_reverse.mp hs)

/-- **A highlight is kept** when its span is. -/
theorem mem_keptHighlights {s : Span} (hget : highlights[i]? = some h) (hs : span? i h = some s) :
    (i, h) ∈ keptHighlights highlights ↔ s ∈ keptSpans highlights := by
  rw [keptHighlights, List.mem_filterMap]
  constructor
  · rintro ⟨t, ht, heq⟩
    obtain ⟨g, hg, hspan⟩ := exists_highlight (mem_spans_of_mem_keptSpans ht)
    rw [hg, Option.map_some, Option.some.injEq, Prod.mk.injEq] at heq
    obtain ⟨rfl, rfl⟩ := heq
    rwa [Option.some.inj (hs.symm.trans hspan)]
  · intro hkept
    obtain ⟨-, -, -, -, horder⟩ := span?_eq_some.mp hs
    exact ⟨s, hkept, by rw [horder, hget]; rfl⟩

/-- A highlight that is kept has a span that is. -/
theorem exists_keptSpan {x : Nat × Highlight} (hx : x ∈ keptHighlights highlights) :
    highlights[x.1]? = some x.2 ∧ ∃ s ∈ keptSpans highlights, span? x.1 x.2 = some s := by
  obtain ⟨s, hs, heq⟩ := List.mem_filterMap.mp hx
  obtain ⟨h, hget, hspan⟩ := exists_highlight (mem_spans_of_mem_keptSpans hs)
  rw [hget, Option.map_some, Option.some.injEq] at heq
  subst heq
  exact ⟨hget, s, hs, hspan⟩

/-- Only highlights that compete are kept. -/
theorem competes_of_mem {x : Nat × Highlight} (hx : x ∈ keptHighlights highlights) :
    Competes highlights x.1 x.2 := by
  obtain ⟨hget, s, -, hspan⟩ := exists_keptSpan hx
  exact competes_iff.mpr ⟨hget, s, hspan⟩

/-- The spans that are kept stand one behind the other. -/
theorem keptSpans_pairwise (highlights : List Highlight) :
    (keptSpans highlights).Pairwise fun s t => s.stop ≤ t.start :=
  List.pairwise_reverse.mpr (spans_flattened highlights).apart

/-- **The highlights that are kept stand one behind the other.** -/
theorem keptHighlights_pairwise (highlights : List Highlight) :
    (keptHighlights highlights).Pairwise fun x y => x.2.stop ≤ y.2.start := by
  rw [keptHighlights, List.pairwise_filterMap]
  refine (keptSpans_pairwise highlights).imp_of_mem fun {s t} hs ht hle x hx y hy => ?_
  obtain ⟨h, hget, hspan⟩ := exists_highlight (mem_spans_of_mem_keptSpans hs)
  obtain ⟨g, hget', hspan'⟩ := exists_highlight (mem_spans_of_mem_keptSpans ht)
  rw [hget, Option.map_some, Option.some.injEq] at hx
  rw [hget', Option.map_some, Option.some.injEq] at hy
  subst hx hy
  dsimp only
  rwa [← (span?_eq_some.mp hspan).2.2.2.1, ← (span?_eq_some.mp hspan').2.2.1]

/-- A span loses to another as its highlight does. -/
theorem losesTo_iff {j : Nat} {g : Highlight} {s t : Span} (hs : span? i h = some s)
    (ht : span? j g = some t) : s.LosesTo t ↔ i < j ∧ h.Meets g := by
  obtain ⟨hlt, -, hstart, hstop, rfl⟩ := span?_eq_some.mp hs
  obtain ⟨hlt', -, hstart', hstop', rfl⟩ := span?_eq_some.mp ht
  rw [Highlight.Meets]
  constructor
  · rintro ⟨horder, hreach, hreach'⟩
    exact ⟨horder, by omega⟩
  · rintro ⟨horder, hmeets⟩
    exact ⟨horder, by omega, by omega⟩

/-- **A highlight that no later one meets is kept.** -/
theorem kept_of_unmet (hc : Competes highlights i h)
    (hunmet : ∀ j g, i < j → Competes highlights j g → ¬ h.Meets g) :
    (i, h) ∈ keptHighlights highlights := by
  obtain ⟨hget, s, hs⟩ := competes_iff.mp hc
  have hmem : s ∈ (spans highlights).foldl keep [] := by
    refine (spans_flattened highlights).mem_of_unmet (mem_spans.mpr ⟨i, h, hget, hs⟩) ?_
    intro t ht hloses
    obtain ⟨g, hgetg, hspan⟩ := exists_highlight ht
    obtain ⟨hlt, hmeets⟩ := (losesTo_iff hs hspan).mp hloses
    exact hunmet t.order g hlt (competes_iff.mpr ⟨hgetg, t, hspan⟩) hmeets
  exact (mem_keptHighlights hget hs).mpr (List.mem_reverse.mpr hmem)

/-- A way from span to span is one from highlight to highlight. -/
theorem outdone_of_way {s t : Span}
    (hway : Relation.TransGen (Span.LosesIn (spans highlights)) s t)
    (hs : span? i h = some s) {j : Nat} {g : Highlight} (hget : highlights[j]? = some g)
    (ht : span? j g = some t) : Relation.TransGen (Outdone highlights) (i, h) (j, g) := by
  induction hway generalizing j g with
  | single hloses =>
    exact .single ⟨competes_iff.mpr ⟨hget, _, ht⟩, (losesTo_iff hs ht).mp hloses.2⟩
  | @tail b t hway hloses ih =>
    have hb : b ∈ spans highlights := by
      cases hway with
      | single hloses => exact hloses.1
      | tail _ hloses => exact hloses.1
    obtain ⟨f, hgetb, hspanb⟩ := exists_highlight hb
    refine (ih hgetb hspanb).tail ⟨competes_iff.mpr ⟨hget, _, ht⟩, ?_⟩
    exact (losesTo_iff hspanb ht).mp hloses.2

end Highlights

end SemanticToken

open SemanticToken

/-- **A highlight that is dropped has lost to a later one.** It meets one that comes later in the
list, which is kept or has lost to a still later one, and so on up to one that is kept. That one
meets the highlight itself, or begins where the highlight has ended. -/
theorem dropped_outdone {highlights : List Highlight} {i : Nat} {h : Highlight}
    (hc : Competes highlights i h) (hdropped : (i, h) ∉ keptHighlights highlights) :
    ∃ j g, (j, g) ∈ keptHighlights highlights ∧ i < j ∧
      Relation.TransGen (Outdone highlights) (i, h) (j, g) ∧
      (h.Meets g ∨ h.stop ≤ g.start) := by
  obtain ⟨hget, s, hs⟩ := competes_iff.mp hc
  have hout : s ∉ (spans highlights).foldl keep [] := fun hkept =>
    hdropped ((mem_keptHighlights hget hs).mpr (List.mem_reverse.mpr hkept))
  obtain ⟨k, hk, hway, hend⟩ :=
    (spans_flattened highlights).outdone s (mem_spans.mpr ⟨i, h, hget, hs⟩) hout
  obtain ⟨g, hgetg, hspan⟩ := exists_highlight ((spans_flattened highlights).subset k hk)
  have hstop := (span?_eq_some.mp hs).2.2.2.1
  have hstart := (span?_eq_some.mp hspan).2.2.1
  have horder := (span?_eq_some.mp hs).2.2.2.2
  refine ⟨k.order, g, (mem_keptHighlights hgetg hspan).mpr (List.mem_reverse.mpr hk), ?_,
    outdone_of_way hway hs hgetg hspan, ?_⟩
  · exact horder ▸ order_lt_of_way hway
  · rcases hend with hloses | hle
    · exact .inl ((losesTo_iff hs hspan).mp hloses).2
    · exact .inr (by omega)

/-- Three highlights, each reaching over the start of the next one, which comes later. -/
def stairs : List Highlight :=
  [⟨0, 10, .keyword, .plain⟩, ⟨5, 15, .stringLiteral, .plain⟩, ⟨12, 20, .lineComment, .plain⟩]

theorem keptHighlights_stairs :
    keptHighlights stairs = [(2, ⟨12, 20, .lineComment, .plain⟩)] := by
  rw [keptHighlights, keptSpans, spans, List.mergeSort_of_pairwise (by decide)]
  rfl

/-- The first of the stairs is dropped and does not meet the one that is kept. The second one, to
which it lost, has lost to that one. -/
theorem dropped_outdone_stairs :
    let h : Highlight := ⟨0, 10, .keyword, .plain⟩
    Competes stairs 0 h ∧ (0, h) ∉ keptHighlights stairs ∧
      ∃ j g, (j, g) ∈ keptHighlights stairs ∧ 0 < j ∧
        Relation.TransGen (Outdone stairs) (0, h) (j, g) ∧ (h.Meets g ∨ h.stop ≤ g.start) := by
  intro h
  have hc : Competes stairs 0 h := ⟨rfl, by decide, rfl⟩
  have hdropped : (0, h) ∉ keptHighlights stairs := by
    rw [keptHighlights_stairs]
    decide
  exact ⟨hc, hdropped, dropped_outdone hc hdropped⟩

/-- **A dropped highlight need not meet one that is kept**: not the first of the stairs, of which
only the last one makes a token. -/
theorem dropped_unmet :
    let h : Highlight := ⟨0, 10, .keyword, .plain⟩
    Competes stairs 0 h ∧ (0, h) ∉ keptHighlights stairs ∧
      (¬ ∃ j g, (j, g) ∈ keptHighlights stairs ∧ 0 < j ∧ h.Meets g) ∧
      ofHighlights (utf8 "abcdefghijklmnopqrst") stairs =
        [⟨0, 12, 8, TokenType.comment.code, []⟩] := by
  intro h
  refine ⟨⟨rfl, by decide, rfl⟩, ?_, ?_, ?_⟩
  · rw [keptHighlights_stairs]
    decide
  · rintro ⟨j, g, hg, -, hmeets⟩
    rw [keptHighlights_stairs, List.mem_singleton, Prod.mk.injEq] at hg
    obtain ⟨-, rfl⟩ := hg
    exact absurd hmeets (by decide)
  · rw [ofHighlights, keptSpans, spans, List.mergeSort_of_pairwise (by decide)]
    decide +kernel

end Yurin
