import Mathlib.Data.List.Induction
import Yurin.Proofs.Highlight.Ranges

/-!
# The spans that are kept

Of highlights whose ranges are the same or do not meet, flattening keeps the last one of each range.
The spans are sorted by start and equal starts keep their order (`spans_pairwise`), so the spans of
one range come one after the other, and each takes the place of the one before. `Kept` says what is
kept at any time: `keep_kept` is the step, and `foldl_kept` the whole run.

`mem_keptSpans` says it of highlights: the spans that are kept are those of the last highlights of
their ranges.
-/

namespace Yurin

/-- The highlight with a number is no error, and every later one of its range is an error. -/
structure LastOfRange (highlights : List Highlight) (i : Nat) (h : Highlight) : Prop where
  get : highlights[i]? = some h
  category_ne : h.category ≠ .error
  later : ∀ (j : Nat) (g : Highlight), i < j → highlights[j]? = some g →
    g.start = h.start → g.stop = h.stop → g.category = .error

/-- **Every range has a last highlight.** -/
theorem exists_lastOfRange {highlights : List Highlight} {h : Highlight} (hh : h ∈ highlights)
    (hc : h.category ≠ .error) :
    ∃ i g, LastOfRange highlights i g ∧ g.start = h.start ∧ g.stop = h.stop := by
  obtain ⟨i, hi⟩ := List.mem_iff_getElem?.mp hh
  clear hh
  induction hn : highlights.length - i using Nat.strongRecOn generalizing i h with
  | _ n ih =>
    by_cases hmore : ∃ j g, i < j ∧ highlights[j]? = some g ∧ g.start = h.start ∧
        g.stop = h.stop ∧ g.category ≠ .error
    · obtain ⟨j, g, hij, hj, hstart, hstop, hgc⟩ := hmore
      have hlt := (List.getElem?_eq_some_iff.mp hj).1
      obtain ⟨l, k, hk, hkstart, hkstop⟩ := ih (highlights.length - j) (by omega) hgc j hj rfl
      exact ⟨l, k, hk, hkstart.trans hstart, hkstop.trans hstop⟩
    · refine ⟨i, h, ⟨hi, hc, fun j g hij hj hstart hstop => ?_⟩, rfl, rfl⟩
      exact Classical.byContradiction fun hgc => hmore ⟨j, g, hij, hj, hstart, hstop, hgc⟩

namespace SemanticToken

/-! ## Spans of highlights -/

section Spans

variable {highlights : List Highlight}

theorem span?_eq_some {order : Nat} {h : Highlight} {s : Span} :
    span? order h = some s ↔ h.start < h.stop ∧
      tokenTypeOf? h.category = some (s.type, s.modifiers) ∧
        s.start = h.start ∧ s.stop = h.stop ∧ s.order = order := by
  unfold span?
  split
  · exact ⟨nofun, fun ⟨hlt, _⟩ => absurd hlt (by omega)⟩
  · rename_i hle
    rw [Option.map_eq_some_iff]
    constructor
    · rintro ⟨found, htype, rfl⟩
      exact ⟨Int.lt_of_not_ge hle, htype, rfl, rfl, rfl⟩
    · rintro ⟨-, htype, hstart, hstop, horder⟩
      refine ⟨_, htype, ?_⟩
      rw [← hstart, ← hstop, ← horder]

/-- A highlight of this kind has a span. -/
theorem exists_span? {source : Bytes} {h : Highlight} (hr : h.Ranged source)
    (hshown : h.category.IsShown) (order : Nat) : ∃ s, span? order h = some s := by
  obtain ⟨found, htype⟩ := Option.isSome_iff_exists.mp hshown
  exact ⟨⟨h.start, h.stop, order, found.1, found.2⟩,
    span?_eq_some.mpr ⟨hr.start_lt, htype, rfl, rfl, rfl⟩⟩

/-- A category that has a token type is not that of errors. -/
theorem category_ne_error {c : Category} {t : TokenType × List UInt32}
    (h : tokenTypeOf? c = some t) : c ≠ .error := by
  rintro rfl
  cases h

theorem mem_spans {s : Span} :
    s ∈ spans highlights ↔ ∃ i h, highlights[i]? = some h ∧ span? i h = some s := by
  rw [spans, (List.mergeSort_perm _ _).mem_iff, List.mem_filterMap]
  simp only [List.mem_iff_getElem?, List.getElem?_mapIdx, Option.map_eq_some_iff, id_eq]
  constructor
  · rintro ⟨_, ⟨i, h, hi, rfl⟩, hs⟩
    exact ⟨i, h, hi, hs⟩
  · rintro ⟨i, h, hi, hs⟩
    exact ⟨_, ⟨i, h, hi, rfl⟩, hs⟩

/-- Sorting keeps the order of those that are equal. -/
theorem filter_mergeSort {α : Type} {le : α → α → Bool} (p : α → Bool) (xs : List α)
    (trans : ∀ a b c, le a b = true → le b c = true → le a c = true)
    (total : ∀ a b, (le a b || le b a) = true)
    (hp : ∀ a b, p a = true → p b = true → le a b = true) :
    (xs.mergeSort le).filter p = xs.filter p := by
  have hpair : (xs.filter p).Pairwise fun a b => le a b = true := by
    refine List.pairwise_of_forall_mem_list fun a ha b hb => ?_
    exact hp a b (List.mem_filter.mp ha).2 (List.mem_filter.mp hb).2
  have hsub := (List.sublist_mergeSort trans total hpair List.filter_sublist).filter p
  rw [List.filter_filter] at hsub
  simp only [Bool.and_self] at hsub
  exact (hsub.eq_of_length ((List.mergeSort_perm xs le).filter p).length_eq.symm).symm

/-- **The spans are sorted by start**, and those with one start by the order of the highlights. -/
theorem spans_pairwise (highlights : List Highlight) :
    (spans highlights).Pairwise fun s t =>
      s.start < t.start ∨ s.start = t.start ∧ s.order < t.order := by
  have horder : ((highlights.mapIdx span?).filterMap id).Pairwise fun s t => s.order < t.order := by
    rw [List.pairwise_filterMap, List.pairwise_iff_getElem]
    intro i j hi hj hij s hs t ht
    rw [List.getElem_mapIdx] at hs ht
    rw [(span?_eq_some.mp hs).2.2.2.2, (span?_eq_some.mp ht).2.2.2.2]
    exact hij
  have htrans (a b c : Span) : decide (a.start ≤ b.start) = true →
      decide (b.start ≤ c.start) = true → decide (a.start ≤ c.start) = true := by
    simp only [decide_eq_true_eq]
    omega
  have htotal (a b : Span) :
      (decide (a.start ≤ b.start) || decide (b.start ≤ a.start)) = true := by
    simp only [Bool.or_eq_true, decide_eq_true_eq]
    omega
  rw [List.pairwise_iff_forall_sublist]
  intro s t hst
  have hle : s.start ≤ t.start := by
    have hsorted := List.pairwise_mergeSort htrans htotal ((highlights.mapIdx span?).filterMap id)
    exact decide_eq_true_eq.mp (List.pairwise_iff_forall_sublist.mp hsorted hst)
  rcases Int.lt_or_eq_of_le hle with hlt | heq
  · exact .inl hlt
  · -- among the spans with this start nothing has moved
    have hsame := filter_mergeSort (fun u : Span => u.start == s.start)
      ((highlights.mapIdx span?).filterMap id) htrans htotal fun a b ha hb => by
        simp only [beq_iff_eq] at ha hb
        exact decide_eq_true (by omega)
    have hsub := hst.filter fun u => u.start == s.start
    rw [spans, hsame] at hsub
    simp only [List.filter_cons, beq_self_eq_true, if_true, heq, List.filter_nil] at hsub
    have hback := List.pairwise_iff_forall_sublist.mp horder (hsub.trans List.filter_sublist)
    exact .inr ⟨heq, hback⟩

end Spans

/-! ## Keeping -/

/-- A span with the same range that comes earlier among the highlights, or one that ends before. -/
def Span.Precedes (s t : Span) : Prop :=
  s.start = t.start ∧ s.stop = t.stop ∧ s.order < t.order ∨ s.stop ≤ t.start

/-- What is kept of some spans, the last one first: of each range the last of the highlights, and
no two that meet. -/
structure Kept (xs kept : List Span) : Prop where
  mem_iff : ∀ k, k ∈ kept ↔
    k ∈ xs ∧ ∀ g ∈ xs, g.start = k.start → g.stop = k.stop → g.order ≤ k.order
  apart : kept.Pairwise fun k g => g.stop ≤ k.start

/-- A span takes the place of those that it meets, which come first. -/
theorem keep_eq {kept : List Span} {s : Span} (hprec : ∀ k ∈ kept, k.Precedes s) :
    keep kept s = s :: kept.dropWhile fun k => s.start < k.stop := by
  have hdrop := congrArg (List.drop (kept.takeWhile fun k => s.start < k.stop).length)
    (List.takeWhile_append_dropWhile (p := fun k => s.start < k.stop) (l := kept))
  rw [List.drop_left] at hdrop
  have hnone : ((kept.takeWhile fun k => s.start < k.stop).any fun k => s.order < k.order) =
      false := by
    simp only [List.any_eq_false, decide_eq_true_eq]
    intro k hk
    have hmeets := List.mem_takeWhile_imp hk
    rw [decide_eq_true_eq] at hmeets
    rcases hprec k (List.takeWhile_subset _ hk) with ⟨-, -, horder⟩ | hle
    · omega
    · omega
  rw [keep, hnone, hdrop]
  rfl

/-- The spans that a new one leaves are those that end before it. -/
theorem mem_dropWhile_apart {kept : List Span} (start : Int)
    (hapart : kept.Pairwise fun k g => g.stop ≤ k.start) (hsome : ∀ k ∈ kept, k.start < k.stop)
    (k : Span) : k ∈ kept.dropWhile (fun k => start < k.stop) ↔ k ∈ kept ∧ k.stop ≤ start := by
  induction kept with
  | nil => simp
  | cons g rest ih =>
    obtain ⟨hg, hrest⟩ := List.pairwise_cons.mp hapart
    have hsome' := fun k hk => hsome k (List.mem_cons_of_mem _ hk)
    by_cases hmeets : start < g.stop
    · rw [List.dropWhile_cons_of_pos (by simpa using hmeets), ih hrest hsome', List.mem_cons]
      constructor
      · exact fun ⟨hk, hle⟩ => ⟨.inr hk, hle⟩
      · rintro ⟨rfl | hk, hle⟩
        · omega
        · exact ⟨hk, hle⟩
    · rw [List.dropWhile_cons_of_neg (by simpa using hmeets)]
      refine ⟨fun hk => ⟨hk, ?_⟩, fun ⟨hk, _⟩ => hk⟩
      rcases List.mem_cons.mp hk with rfl | hk
      · omega
      · have hle := hg k hk
        have hlt := hsome g List.mem_cons_self
        omega

/-- **One more span.** -/
theorem keep_kept {xs kept : List Span} {s : Span} (h : Kept xs kept)
    (hsome : ∀ x ∈ xs, x.start < x.stop) (hprec : ∀ x ∈ xs, x.Precedes s) :
    Kept (xs ++ [s]) (keep kept s) := by
  have hsub : ∀ k ∈ kept, k ∈ xs := fun k hk => ((h.mem_iff k).mp hk).1
  have hleft := mem_dropWhile_apart s.start h.apart fun k hk => hsome k (hsub k hk)
  rw [keep_eq fun k hk => hprec k (hsub k hk)]
  refine ⟨fun k => ?_, List.pairwise_cons.mpr ⟨fun g hg => ((hleft g).mp hg).2, ?_⟩⟩
  · rw [List.mem_cons, hleft]
    simp only [List.mem_append, List.mem_singleton]
    constructor
    · rintro (rfl | ⟨hk, hle⟩)
      · refine ⟨.inr rfl, ?_⟩
        rintro g (hg | rfl) hstart hstop
        · have hlt := hsome g hg
          rcases hprec g hg with ⟨-, -, horder⟩ | hle
          · exact Nat.le_of_lt horder
          · omega
        · exact Nat.le_refl _
      · obtain ⟨hmem, hmax⟩ := (h.mem_iff k).mp hk
        refine ⟨.inl hmem, ?_⟩
        rintro g (hg | rfl) hstart hstop
        · exact hmax g hg hstart hstop
        · have hlt := hsome k hmem
          omega
    · rintro ⟨hk | rfl, hmax⟩
      · rcases hprec k hk with ⟨hstart, hstop, horder⟩ | hle
        · have hover := hmax s (.inr rfl) hstart.symm hstop.symm
          omega
        · have hkept := (h.mem_iff k).mpr ⟨hk, fun g hg => hmax g (.inl hg)⟩
          exact .inr ⟨hkept, hle⟩
      · exact .inl rfl
  · exact h.apart.sublist (List.dropWhile_sublist _)

/-- **All spans, one after the other.** -/
theorem foldl_kept {xs : List Span} (hsome : ∀ x ∈ xs, x.start < x.stop)
    (hprec : xs.Pairwise Span.Precedes) : Kept xs (xs.foldl keep []) := by
  induction xs using List.reverseRecOn with
  | nil => exact ⟨fun k => by simp, List.Pairwise.nil⟩
  | append_singleton xs s ih =>
    obtain ⟨hxs, -, hlast⟩ := List.pairwise_append.mp hprec
    have hsome' : ∀ x ∈ xs, x.start < x.stop := fun x hx => hsome x (List.mem_append_left _ hx)
    rw [List.foldl_append, List.foldl_cons, List.foldl_nil]
    exact keep_kept (ih hsome' hxs) hsome' fun x hx => hlast x hx s (List.mem_singleton_self s)

/-! ## Highlights -/

section Highlights

variable {source : Bytes} {highlights : List Highlight}

theorem spans_precede (hproper : ProperHighlights source highlights) :
    (spans highlights).Pairwise Span.Precedes := by
  refine (spans_pairwise highlights).imp_of_mem fun {s t} hs ht hst => ?_
  obtain ⟨i, h, hi, hspan⟩ := mem_spans.mp hs
  obtain ⟨j, g, hj, hspan'⟩ := mem_spans.mp ht
  obtain ⟨hlt, htype, hstart, hstop, -⟩ := span?_eq_some.mp hspan
  obtain ⟨hlt', htype', hstart', hstop', -⟩ := span?_eq_some.mp hspan'
  have hranges := hproper.compatible h (List.mem_of_getElem? hi) g (List.mem_of_getElem? hj)
    (category_ne_error htype) (category_ne_error htype')
  rw [Highlight.Compatible, ← hstart, ← hstart', ← hstop, ← hstop'] at hranges
  rw [← hstart', ← hstop'] at hlt'
  rcases hranges with ⟨heq, heq'⟩ | hle | hle
  · rcases hst with hst | ⟨-, horder⟩
    · omega
    · exact .inl ⟨heq, heq', horder⟩
  · exact .inr hle
  · rcases hst with hst | ⟨hst, -⟩ <;> omega

theorem spans_kept (hproper : ProperHighlights source highlights) :
    Kept (spans highlights) ((spans highlights).foldl keep []) := by
  refine foldl_kept (fun s hs => ?_) (spans_precede hproper)
  obtain ⟨i, h, -, hspan⟩ := mem_spans.mp hs
  obtain ⟨hlt, -, hstart, hstop, -⟩ := span?_eq_some.mp hspan
  rwa [hstart, hstop]

/-- **The spans that are kept** are those of the last highlights of their ranges. -/
theorem mem_keptSpans (hproper : ProperHighlights source highlights) {s : Span} :
    s ∈ keptSpans highlights ↔ ∃ i h, LastOfRange highlights i h ∧ span? i h = some s := by
  rw [keptSpans, List.mem_reverse, (spans_kept hproper).mem_iff, mem_spans]
  constructor
  · rintro ⟨⟨i, h, hi, hspan⟩, hmax⟩
    obtain ⟨-, htype, hstart, hstop, horder⟩ := span?_eq_some.mp hspan
    refine ⟨i, h, ⟨hi, category_ne_error htype, fun j g hij hj hgstart hgstop => ?_⟩, hspan⟩
    -- a later highlight of the range that is no error would have a span of its own
    refine Classical.byContradiction fun hgc => ?_
    obtain ⟨hr, hshown⟩ := hproper.ranged g (List.mem_of_getElem? hj) hgc
    obtain ⟨t, hspan'⟩ := exists_span? hr hshown j
    obtain ⟨-, -, htstart, htstop, horder'⟩ := span?_eq_some.mp hspan'
    have hle := hmax t (mem_spans.mpr ⟨j, g, hj, hspan'⟩) (by omega) (by omega)
    omega
  · rintro ⟨i, h, hlast, hspan⟩
    obtain ⟨-, -, hstart, hstop, horder⟩ := span?_eq_some.mp hspan
    refine ⟨⟨i, h, hlast.get, hspan⟩, fun t ht htstart htstop => ?_⟩
    obtain ⟨j, g, hj, hspan'⟩ := mem_spans.mp ht
    obtain ⟨-, htype, hgstart, hgstop, horder'⟩ := span?_eq_some.mp hspan'
    rw [horder, horder']
    refine Nat.le_of_not_lt fun hij => category_ne_error htype (hlast.later j g hij hj ?_ ?_)
    · rw [← hgstart, htstart, hstart]
    · rw [← hgstop, htstop, hstop]

end Highlights

end SemanticToken

end Yurin
