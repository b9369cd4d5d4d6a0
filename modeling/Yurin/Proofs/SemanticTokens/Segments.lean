import Yurin.Proofs.SemanticTokens.Winners
import Yurin.Proofs.Text.LineBounds

/-!
# Segments of highlights

A highlight shows as one segment on each line that it has bytes on: `SegmentOf` says what a segment
is, in terms of the text alone. Lines, starts and lengths of segments are numbers without a bound; a
semantic token has those of a segment cut to 32 bits (`Segment.token`).

Results:
* `Placed.ordered`: segments of highlights that stand one behind the other do so too, on their lines
  and in UTF-16 units.
* `Placed.inside`, `SegmentOf.length_pos`, `SegmentOf.fits`: a segment ends on its line, is not
  empty, and its numbers are not greater than the size of the source.
* `ofHighlights_eq`, `segments_faithful`: the tokens of highlights are those of their segments, and
  these show the last highlights of all ranges (`FaithfulSegments`).
-/

namespace Yurin

/-- A part of a line that is shown: where it begins and how long it is in UTF-16 units, on which
line, and as what. -/
structure Segment where
  line : Nat
  start : Nat
  length : Nat
  type : TokenType
  modifiers : List UInt32
  deriving DecidableEq, Repr

namespace Segment

/-- The token of a segment. -/
def token (p : Segment) : SemanticToken :=
  ⟨p.line.toUInt32, p.start.toUInt32, p.length.toUInt32, p.type.code, p.modifiers⟩

/-- The numbers of a segment are those of its token. -/
def Fits (p : Segment) : Prop :=
  p.line < UInt32.size ∧ p.start < UInt32.size ∧ p.length < UInt32.size

/-- A segment ends before another begins. -/
def Before (p q : Segment) : Prop :=
  p.line < q.line ∨ p.line = q.line ∧ p.start + p.length ≤ q.start

end Segment

/-- A segment of a highlight: the part of a line that the highlight covers, if there is any. -/
inductive SegmentOf (source : Bytes) (h : Highlight) : Segment → Prop
  | mk {number : Nat} {before left shown right behind : Bytes} {t : TokenType} {ms : List UInt32}
      (hline : source.IsLine number before (left ++ shown ++ right) behind)
      (hfirst : ((before ++ left).length : Int) = max h.start before.length)
      (hlast : ((before ++ left ++ shown).length : Int) =
        min h.stop (before ++ left ++ shown ++ right).length)
      (hshown : shown ≠ [])
      (htype : tokenTypeOf? h.category = some (t, ms)) :
      SegmentOf source h ⟨number, left.utf16Length, shown.utf16Length, t, ms⟩

/-! ## Places of segments -/

/-- The parts of a line as parts of the text. -/
theorem Bytes.IsLine.slices {text before left shown right behind : Bytes} {number : Nat}
    (h : text.IsLine number before (left ++ shown ++ right) behind) :
    text.slice before.length (before ++ left).length = left ∧
      text.slice (before ++ left).length (before ++ left ++ shown).length = shown := by
  have hleft := Bytes.slice_append before left (shown ++ right ++ behind)
  have hshown := Bytes.slice_append (before ++ left) shown (right ++ behind)
  rw [h.split]
  constructor
  · simpa using hleft
  · simpa [Nat.add_assoc] using hshown

/-- Where a segment of a highlight stands: the bytes `[first, last)` of the source, on a line. -/
structure Placed (source : Bytes) (h : Highlight) (p : Segment) (before line behind : Bytes)
    (first last : Nat) : Prop where
  isLine : source.IsLine p.line before line behind
  line_le : before.length ≤ first
  first_lt : first < last
  le_line : last ≤ (before ++ line).length
  start_le : h.start ≤ first
  le_stop : (last : Int) ≤ h.stop
  boundary_first : Boundary source first
  boundary_last : Boundary source last
  start_eq : Bytes.utf16Length (source.take first) =
    Bytes.utf16Length (source.take before.length) + p.start
  length_eq : Bytes.utf16Length (source.take last) =
    Bytes.utf16Length (source.take first) + p.length

/-- The characters at both ends of a segment are whole. -/
theorem SegmentOf.placed {source : Bytes} {h : Highlight} {p : Segment} (hp : SegmentOf source h p)
    (hr : h.Ranged source) :
    ∃ before line behind first last, Placed source h p before line behind first last := by
  obtain @⟨number, before, left, shown, right, behind, t, ms, hline, hfirst, hlast, hshown, -⟩ := hp
  have hpos := List.length_pos_iff.mpr hshown
  obtain ⟨hopen, hclose⟩ := hline.boundary
  have hle : before.length ≤ (before ++ left).length := by simp
  have hlt : (before ++ left).length < (before ++ left ++ shown).length := by
    simp only [List.length_append]
    omega
  have hline_eq : before ++ (left ++ shown ++ right) = before ++ left ++ shown ++ right := by simp
  have hend : (before ++ left ++ shown).length ≤ (before ++ (left ++ shown ++ right)).length := by
    simp only [List.length_append]
    omega
  have hstart : Boundary source (before ++ left).length := by
    rcases Int.le_total h.start before.length with hs | hs
    · rwa [show (before ++ left).length = before.length by omega]
    · rw [show (before ++ left).length = h.start.toNat by omega]
      exact hr.boundary_start
  have hstop : Boundary source (before ++ left ++ shown).length := by
    rw [← hline_eq] at hlast
    rcases Int.le_total h.stop (before ++ (left ++ shown ++ right)).length with hs | hs
    · rw [show (before ++ left ++ shown).length = h.stop.toNat by omega]
      exact hr.boundary_stop
    · rwa [show (before ++ left ++ shown).length = (before ++ (left ++ shown ++ right)).length by
        omega]
  refine ⟨before, left ++ shown ++ right, behind, (before ++ left).length,
    (before ++ left ++ shown).length, hline, hle, hlt, hend, by omega, by omega, hstart, hstop,
    ?_, ?_⟩
  · rw [Bytes.utf16Length_slice hopen hstart hle, hline.slices.1]
  · rw [Bytes.utf16Length_slice hstart hstop (Nat.le_of_lt hlt), hline.slices.2]

namespace Placed

variable {source : Bytes} {h : Highlight} {p : Segment} {before line behind : Bytes}
  {first last : Nat}

/-- **A segment ends on its line.** -/
theorem inside (hp : Placed source h p before line behind first last) :
    p.start + p.length ≤ line.utf16Length := by
  obtain ⟨hopen, hclose⟩ := hp.isLine.boundary
  have hslice : source.slice before.length (before ++ line).length = line := by
    rw [hp.isLine.split, List.length_append]
    exact Bytes.slice_append before line behind
  have hline := Bytes.utf16Length_slice hopen hclose (by simp)
  have hrest := Bytes.utf16Length_slice hp.boundary_last hclose hp.le_line
  rw [hslice] at hline
  have hstart := hp.start_eq
  have hlength := hp.length_eq
  omega

/-- **Segments of highlights one behind the other** stand one behind the other. -/
theorem ordered {g : Highlight} {q : Segment} {before' line' behind' : Bytes} {first' last' : Nat}
    (hp : Placed source h p before line behind first last)
    (hq : Placed source g q before' line' behind' first' last') (hle : h.stop ≤ g.start) :
    p.Before q := by
  have hlast : last ≤ first' := by
    have hstop := hp.le_stop
    have hstart := hq.start_le
    omega
  rcases Nat.lt_trichotomy p.line q.line with hlt | heq | hgt
  · exact .inl hlt
  · refine .inr ⟨heq, ?_⟩
    have hisLine := hq.isLine
    rw [← heq] at hisLine
    obtain ⟨rfl, -⟩ := hp.isLine.unique hisLine
    have hbetween := Bytes.utf16Length_slice hp.boundary_last hq.boundary_first hlast
    have hpstart := hp.start_eq
    have hplength := hp.length_eq
    have hqstart := hq.start_eq
    omega
  · have hlines := hq.isLine.lt_of_lt hp.isLine hgt
    have hp₁ := hp.line_le
    have hp₂ := hp.first_lt
    have hq₁ := hq.first_lt
    have hq₂ := hq.le_line
    omega

end Placed

namespace SegmentOf

variable {source : Bytes} {h : Highlight} {p : Segment}

theorem length_pos (hp : SegmentOf source h p) : 0 < p.length := by
  obtain ⟨hline, hfirst, hlast, hshown, htype⟩ := hp
  exact (Bytes.utf16Length_bounds _).2 hshown

/-- The numbers of a segment are not greater than the size of the source. -/
theorem fits (hp : SegmentOf source h p) (hsize : source.length < UInt32.size) : p.Fits := by
  obtain @⟨number, before, left, shown, right, behind, t, ms, hline, -, -, -, -⟩ := hp
  have hlen := congrArg List.length hline.split
  have hnumber : number ≤ before.length := hline.count ▸ List.count_le_length
  have hleft := (Bytes.utf16Length_bounds left).1
  have hshown := (Bytes.utf16Length_bounds shown).1
  simp only [List.length_append] at hlen
  exact ⟨by dsimp only; omega, by dsimp only; omega, by dsimp only; omega⟩

end SegmentOf

/-- **Every proper highlight shows**: it has a segment on the line where it begins. -/
theorem Highlight.Ranged.exists_segment {source : Bytes} {h : Highlight} (hr : h.Ranged source)
    (hshown : h.category.IsShown) : ∃ p, SegmentOf source h p := by
  have hnonneg := hr.start_nonneg
  have hlt := hr.start_lt
  have hle := hr.stop_le
  obtain ⟨⟨t, ms⟩, htype⟩ := Option.isSome_iff_exists.mp hshown
  obtain ⟨number, before, left, right, behind, hline, hstart⟩ :=
    Bytes.exists_isLine_at (show h.start.toNat ≤ source.length by omega)
  have hsplit : source = before ++ left ++ (right ++ behind) := by rw [hline.split]; simp
  have hright : right ≠ [] := by
    rintro rfl
    rcases hline.closed with rfl | hhead
    · have hlen := congrArg List.length hsplit
      rw [List.append_nil, List.append_nil, hstart] at hlen
      omega
    · refine hr.head_ne ?_
      rw [hsplit, ← hstart, List.getElem?_append_right (Nat.le_refl _), Nat.sub_self,
        ← List.head?_eq_getElem?]
      exact hhead
  have hpos := List.length_pos_iff.mpr hright
  obtain ⟨n, hn⟩ : ∃ n, n = h.stop.toNat - h.start.toNat := ⟨_, rfl⟩
  have hcut : left ++ right.take n ++ right.drop n = left ++ right := by simp
  rw [← hcut] at hline
  refine ⟨_, .mk hline ?_ ?_ ?_ htype⟩
  · rw [hstart]
    simp only [List.length_append] at hstart
    omega
  · simp only [List.length_append, List.length_take, List.length_drop] at hstart ⊢
    omega
  · rw [ne_eq, List.take_eq_nil_iff]
    rintro (hzero | hnil)
    · omega
    · exact hright hnil

/-! ## Segments of spans -/

namespace SemanticToken

variable {source : Bytes}

/-- The segment of a span on a line, lines from one. -/
def segment? (source : Bytes) (s : Span) (line : Nat) : Option Segment :=
  let (lineStart, lineStop) := (LineIndex.ofText source).lineBounds line
  let first := (max s.start lineStart).toNat
  let last := (min s.stop lineStop).toNat
  if last ≤ first then none
  else some ⟨line - 1, (source.slice lineStart first).utf16Length,
    (source.slice first last).utf16Length, s.type, s.modifiers⟩

theorem onLine?_eq (s : Span) (line : Nat) :
    onLine? source (.ofText source) s line = (segment? source s line).map Segment.token := by
  unfold onLine? segment?
  rcases (LineIndex.ofText source).lineBounds line with ⟨lineStart, lineStop⟩
  dsimp only
  split <;> rfl

/-- The segments of a span, line after line. -/
def segmentsOf (source : Bytes) (s : Span) : List Segment :=
  let first := ((LineIndex.ofText source).lineColumn s.start).1
  let last := ((LineIndex.ofText source).lineColumn (s.stop - 1)).1
  (List.range' first (last + 1 - first)).filterMap (segment? source s)

theorem ofSpan_eq (s : Span) :
    ofSpan source (.ofText source) s = (segmentsOf source s).map Segment.token := by
  rw [ofSpan, segmentsOf, List.map_filterMap]
  simp only [onLine?_eq]

/-- What a span shows of a line: the part that it covers. -/
theorem segment?_of_split {s : Span} {number : Nat} {before left shown right behind : Bytes}
    (hline : source.IsLine number before (left ++ shown ++ right) behind)
    (hfirst : ((before ++ left).length : Int) = max s.start before.length)
    (hlast : ((before ++ left ++ shown).length : Int) =
      min s.stop (before ++ left ++ shown ++ right).length) (hshown : shown ≠ []) :
    segment? source s (number + 1) =
      some ⟨number, left.utf16Length, shown.utf16Length, s.type, s.modifiers⟩ := by
  have hpos := List.length_pos_iff.mpr hshown
  have hbounds := hline.lineBounds
  have hwhole : before ++ (left ++ shown ++ right) = before ++ left ++ shown ++ right := by simp
  obtain ⟨hleft, hmiddle⟩ := hline.slices
  have hlt : (before ++ left).length < (before ++ left ++ shown).length := by
    simp only [List.length_append]
    omega
  unfold segment?
  rw [Int.natCast_add, Int.natCast_one, hbounds, hwhole]
  dsimp only
  rw [← hfirst, ← hlast, Int.toNat_natCast, Int.toNat_natCast, if_neg (by omega), hleft, hmiddle,
    Nat.add_sub_cancel]

/-- **The segments of a line**: what a span shows of it, and nothing else. -/
theorem exists_split {s : Span} {number : Nat} {before line behind : Bytes}
    (hline : source.IsLine number before line behind) {p : Segment}
    (hp : segment? source s (number + 1) = some p) :
    ∃ left shown right, line = left ++ shown ++ right ∧
      ((before ++ left).length : Int) = max s.start before.length ∧
      ((before ++ left ++ shown).length : Int) =
        min s.stop (before ++ left ++ shown ++ right).length ∧ shown ≠ [] := by
  have hbounds := hline.lineBounds
  unfold segment? at hp
  rw [Int.natCast_add, Int.natCast_one, hbounds] at hp
  dsimp only at hp
  split at hp
  · cases hp
  rename_i hlt
  rw [List.length_append] at hlt
  obtain ⟨m, hm⟩ : ∃ m, m = (max s.start before.length).toNat - before.length := ⟨_, rfl⟩
  obtain ⟨n, hn⟩ : ∃ n, n = (min s.stop ((before.length + line.length : Nat) : Int)).toNat -
    (max s.start before.length).toNat := ⟨_, rfl⟩
  refine ⟨line.take m, (line.drop m).take n, (line.drop m).drop n, ?_, ?_, ?_, ?_⟩
  · rw [List.append_assoc, List.take_append_drop, List.take_append_drop]
  · simp only [List.length_append, List.length_take]
    omega
  · simp only [List.length_append, List.length_take, List.length_drop]
    omega
  · rw [← List.length_pos_iff, List.length_take, List.length_drop]
    omega

theorem lineColumn_bounds (source : Bytes) (offset : Int) :
    1 ≤ ((LineIndex.ofText source).lineColumn offset).1 ∧
      ((LineIndex.ofText source).lineColumn offset).1 ≤ source.count lineFeed + 1 := by
  have hlines : (LineIndex.ofText source).starts.length = source.count lineFeed + 1 := by
    rw [LineIndex.ofText, List.length_cons, lineStartsAfter_length]
  constructor
  · rw [LineIndex.lineColumn, LineIndex.ofText]
    simp
  · rw [← hlines]
    exact (List.takeWhile_sublist _).length_le

/-- **The segments of a span** are those of its highlight. -/
theorem mem_segmentsOf {h : Highlight} {i : Nat} {s : Span} (hs : span? i h = some s)
    {p : Segment} : p ∈ segmentsOf source s ↔ SegmentOf source h p := by
  obtain ⟨hlt, htype, hstart, hstop, -⟩ := span?_eq_some.mp hs
  simp only [segmentsOf, List.mem_filterMap, List.mem_range'_1]
  constructor
  · rintro ⟨n, ⟨hfrom, hto⟩, hp⟩
    have hfirst := (lineColumn_bounds source s.start).1
    have hlast := (lineColumn_bounds source (s.stop - 1)).2
    obtain ⟨number, rfl⟩ : ∃ number, n = number + 1 := ⟨n - 1, by omega⟩
    obtain ⟨before, line, behind, hline⟩ :=
      Bytes.exists_isLine (show number ≤ source.count lineFeed by omega)
    obtain ⟨left, shown, right, rfl, hl, hm, hne⟩ := exists_split hline hp
    rw [segment?_of_split hline hl hm hne, Option.some.injEq] at hp
    subst hp
    rw [hstart] at hl
    rw [hstop] at hm
    exact .mk hline hl hm hne htype
  · rintro @⟨number, before, left, shown, right, behind, t, ms, hline, hl, hm, hne, htype'⟩
    have hpos := List.length_pos_iff.mpr hne
    obtain ⟨htype₁, htype₂⟩ := Prod.mk.inj (Option.some.inj (htype.symm.trans htype'))
    have hsegment := segment?_of_split hline (hstart ▸ hl) (hstop ▸ hm) hne
    rw [htype₁, htype₂] at hsegment
    refine ⟨number + 1, ?_, hsegment⟩
    simp only [List.length_append] at hl hm
    have hto := (hline.le_lineColumn (s.stop - 1)).mpr (by omega)
    suffices hfrom : ((LineIndex.ofText source).lineColumn s.start).1 ≤ number + 1 by omega
    -- otherwise the span would begin on a later line
    refine Nat.le_of_not_lt fun hlater => ?_
    have hmost := (lineColumn_bounds source s.start).2
    obtain ⟨before', line', behind', hline'⟩ :=
      Bytes.exists_isLine (show number + 1 ≤ source.count lineFeed by omega)
    have hbegins := (hline'.le_lineColumn s.start).mp hlater
    have hends := hline.lt_of_lt hline' (Nat.lt_succ_self number)
    simp only [List.length_append] at hends
    omega

/-- The segments of a span are on one line after the other. -/
theorem segmentsOf_pairwise (source : Bytes) (s : Span) :
    (segmentsOf source s).Pairwise fun p q => p.line < q.line := by
  have hline {n : Nat} {p : Segment} (hp : segment? source s n = some p) : p.line = n - 1 := by
    unfold segment? at hp
    dsimp only at hp
    split at hp
    · cases hp
    · cases hp
      rfl
  rw [segmentsOf, List.pairwise_filterMap]
  refine (List.pairwise_lt_range' 1).imp_of_mem fun {m n} hm _ hlt p hp q hq => ?_
  have hfirst := (lineColumn_bounds source s.start).1
  have hle := (List.mem_range'_1.mp hm).1
  rw [hline hp, hline hq]
  omega

/-! ## Segments of highlights -/

/-- The segments of highlights, in order. -/
def segments (source : Bytes) (highlights : List Highlight) : List Segment :=
  (keptSpans highlights).flatMap (segmentsOf source)

/-- **The tokens of highlights are those of their segments.** -/
theorem ofHighlights_eq (source : Bytes) (highlights : List Highlight) :
    ofHighlights source highlights = (segments source highlights).map Segment.token := by
  rw [ofHighlights, segments, List.map_flatMap]
  exact congrArg (fun f => (keptSpans highlights).flatMap f) (funext ofSpan_eq)

end SemanticToken

/-- The segments are those of the last highlights of all ranges, in the order of the text: no range
is left out, and the segments are not empty, do not overlap and end on their lines. -/
structure FaithfulSegments (source : Bytes) (highlights : List Highlight)
    (segments : List Segment) : Prop where
  mem_iff : ∀ p, p ∈ segments ↔ ∃ i h, LastOfRange highlights i h ∧ SegmentOf source h p
  covered : ∀ h ∈ highlights, h.category ≠ .error →
    ∃ i g, LastOfRange highlights i g ∧ g.start = h.start ∧ g.stop = h.stop ∧
      ∃ p ∈ segments, SegmentOf source g p
  ordered : segments.Pairwise Segment.Before
  length_pos : ∀ p ∈ segments, 0 < p.length
  inside : ∀ p ∈ segments, ∃ before line behind, source.IsLine p.line before line behind ∧
    p.start + p.length ≤ line.utf16Length

/-- **Flattening is faithful.** -/
theorem ProperHighlights.segments_faithful {source : Bytes} {highlights : List Highlight}
    (hproper : ProperHighlights source highlights) :
    FaithfulSegments source highlights (SemanticToken.segments source highlights) := by
  have hranged {i : Nat} {h : Highlight} (hlast : LastOfRange highlights i h) :=
    hproper.ranged h (List.mem_of_getElem? hlast.get) hlast.category_ne
  have hmem (p : Segment) : p ∈ SemanticToken.segments source highlights ↔
      ∃ i h, LastOfRange highlights i h ∧ SegmentOf source h p := by
    rw [SemanticToken.segments, List.mem_flatMap]
    constructor
    · rintro ⟨s, hs, hp⟩
      obtain ⟨i, h, hlast, hspan⟩ := (SemanticToken.mem_keptSpans hproper).mp hs
      exact ⟨i, h, hlast, (SemanticToken.mem_segmentsOf hspan).mp hp⟩
    · rintro ⟨i, h, hlast, hp⟩
      obtain ⟨hr, hshown⟩ := hranged hlast
      obtain ⟨s, hspan⟩ := SemanticToken.exists_span? hr hshown i
      exact ⟨s, (SemanticToken.mem_keptSpans hproper).mpr ⟨i, h, hlast, hspan⟩,
        (SemanticToken.mem_segmentsOf hspan).mpr hp⟩
  refine ⟨hmem, fun h hh hc => ?_, ?_, fun p hp => ?_, fun p hp => ?_⟩
  · obtain ⟨i, g, hlast, hstart, hstop⟩ := exists_lastOfRange hh hc
    obtain ⟨hr, hshown⟩ := hranged hlast
    obtain ⟨p, hp⟩ := hr.exists_segment hshown
    exact ⟨i, g, hlast, hstart, hstop, p, (hmem p).mpr ⟨i, g, hlast, hp⟩, hp⟩
  · refine List.pairwise_flatMap.mpr
      ⟨fun s _ => (SemanticToken.segmentsOf_pairwise source s).imp .inl, ?_⟩
    refine (SemanticToken.keptSpans_pairwise highlights).imp_of_mem
      fun {s t} hs ht hle p hp q hq => ?_
    obtain ⟨i, h, hlast, hspan⟩ := (SemanticToken.mem_keptSpans hproper).mp hs
    obtain ⟨j, g, hlast', hspan'⟩ := (SemanticToken.mem_keptSpans hproper).mp ht
    have hr := (hranged hlast).1
    have hr' := (hranged hlast').1
    obtain ⟨_, _, _, _, _, hplaced⟩ := ((SemanticToken.mem_segmentsOf hspan).mp hp).placed hr
    obtain ⟨_, _, _, _, _, hplaced'⟩ := ((SemanticToken.mem_segmentsOf hspan').mp hq).placed hr'
    refine hplaced.ordered hplaced' ?_
    rwa [← (SemanticToken.span?_eq_some.mp hspan).2.2.2.1,
      ← (SemanticToken.span?_eq_some.mp hspan').2.2.1]
  · obtain ⟨i, h, -, hp⟩ := (hmem p).mp hp
    exact hp.length_pos
  · obtain ⟨i, h, hlast, hp⟩ := (hmem p).mp hp
    obtain ⟨before, line, behind, first, last, hplaced⟩ := hp.placed (hranged hlast).1
    exact ⟨before, line, behind, hplaced.isLine, hplaced.inside⟩

end Yurin
