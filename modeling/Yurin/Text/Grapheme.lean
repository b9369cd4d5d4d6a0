import Yurin.Text.ClusterClass
import Yurin.Text.Rune

/-!
# Grapheme clusters

What a reader takes for one character may be several: a letter with its marks, a syllable, a flag, a
joined pictograph. The grammar of clusters is an automaton over character classes (`ClusterState`):
a cluster goes on as long as the next character is in its grammar.

* A syllable, a flag and a pictograph take marks and joiners, and a pictograph after each joiner.
* Any other character takes marks and joiners.
* Marks in front join any cluster that is no control.
* Carriage return and line feed are one cluster. Alone, neither of them starts one, and no byte does
  that starts no character.

A text is read through a window (`View`), by any rule that finds the first cluster among the bytes
that are seen (`ClusterRule`). The window holds `View.size` bytes when it is filled, and a cluster
ends at the latest where the window does. Where no cluster starts, the whole text must be seen
before its first byte is taken alone, and a text of `View.limit` bytes is too long to be seen.
-/

namespace Yurin

/-! ## The grammar of clusters -/

/-- What may follow in a cluster. -/
inductive ClusterState
  /-- Nothing. -/
  | complete
  /-- Any cluster that is no control. -/
  | prepended
  /-- More of a syllable: after leading consonants, after those and an open syllable, after an open
  syllable alone, after vowels, and after the last vowel. -/
  | leading | leadingOpen | opened | vowel | trailing
  /-- A second regional indicator. -/
  | indicator
  /-- Marks and joiners; a pictograph if the last one was a joiner. -/
  | pictorial (joined : Bool)
  /-- Marks and joiners. -/
  | plain
  deriving DecidableEq, Repr

namespace ClusterState

/-- The state after the first character of a cluster. -/
def start : ClusterClass → ClusterState
  | .carriageReturn | .lineFeed | .control => .complete
  | .prepended => .prepended
  | .leadingJamo => .leading
  | .openSyllable => .opened
  | .vowelJamo => .vowel
  | .closedSyllable | .trailingJamo => .trailing
  | .regionalIndicator => .indicator
  | .pictograph => .pictorial false
  | .zeroWidthJoiner | .extend | .spacingMark | .other => .plain

/-- The state after a mark or a joiner that follows a syllable, a flag or a pictograph. -/
def mark? : ClusterClass → Option ClusterState
  | .extend | .spacingMark => some (.pictorial false)
  | .zeroWidthJoiner => some (.pictorial true)
  | _ => none

/-- The state after one more character, if that belongs to the cluster. -/
def next? (s : ClusterState) (c : ClusterClass) : Option ClusterState :=
  match s, c with
  | .complete, _ => none
  | .prepended, .carriageReturn | .prepended, .lineFeed | .prepended, .control => none
  | .prepended, _ => some (start c)
  | .leading, .leadingJamo => some .leading
  | .leading, .openSyllable => some .leadingOpen
  | .leading, .closedSyllable => some .trailing
  | .leading, .vowelJamo | .leadingOpen, .vowelJamo | .opened, .vowelJamo | .vowel, .vowelJamo =>
    some .vowel
  | .opened, .trailingJamo | .vowel, .trailingJamo | .trailing, .trailingJamo => some .trailing
  | .indicator, .regionalIndicator => some (.pictorial false)
  | .pictorial true, .pictograph => some (.pictorial false)
  | .plain, .extend | .plain, .spacingMark | .plain, .zeroWidthJoiner => some .plain
  | .plain, _ => none
  | _, _ => mark? c

end ClusterState

/-! ## Characters in view -/

/-- How many continuation bytes a lead byte announces. -/
def announced (b : UInt8) : Nat :=
  if 192 ≤ b && b ≤ 223 then 1
  else if 224 ≤ b && b ≤ 239 then 2
  else if 240 ≤ b && b ≤ 247 then 3
  else 0

/-- The class of the first character of the text `b :: rest` and how many bytes it takes, if all of
them are among the `inView` bytes seen. A lead byte with as many continuation bytes as it announces
is a character, also where the code point is none. -/
def classInView? (inView : Nat) (b : UInt8) (rest : Bytes) : Option (ClusterClass × Nat) :=
  let (class_, size) := match decodeRune b rest with
    | (.valid code, size) => (some (ClusterClass.ofCode code), size)
    | (.invalid _, _) =>
      let n := announced b
      if 0 < n && ((rest.take n).takeWhile isContinuation).length == n then (some .other, n + 1)
      else (none, 1)
  if size ≤ inView then class_.map (·, size) else none

/-- How many bytes a cluster takes that has `taken` bytes so far, of which the last `skip` are still
to be passed over. -/
def clusterSize : ClusterState → (taken skip inView : Nat) → Bytes → Nat
  | _, taken, _, _, [] => taken
  | s, taken, skip + 1, inView, _ :: rest => clusterSize s taken skip (inView - 1) rest
  | s, taken, 0, inView, b :: rest =>
    match classInView? inView b rest with
    | none => taken
    | some (c, size) =>
      match s.next? c with
      | none => taken
      | some s => clusterSize s (taken + size) (size - 1) (inView - 1) rest

/-- How many bytes the first cluster of a text takes, of which `inView` bytes are seen; there is
none where no cluster starts. -/
def firstCluster? (inView : Nat) : Bytes → Option Nat
  | [] => none
  | b :: rest =>
    match classInView? inView b rest with
    | none => none
    | some (.carriageReturn, _) =>
      if 2 ≤ inView && rest.head? == some lineFeed then some 2 else none
    | some (.lineFeed, _) => none
    | some (c, size) => some (clusterSize (.start c) size (size - 1) (inView - 1) rest)

/-! ## Reading through a window -/

/-- A rule for clusters: how many bytes the first cluster of a text takes, of which `inView` bytes
are seen; there is none where no cluster starts. -/
abbrev ClusterRule := (inView : Nat) → Bytes → Option Nat

/-- What is seen of a text: how many bytes, and whether it is known to end there. -/
structure View where
  inView : Nat
  ended : Bool

namespace View

/-- How many bytes a filled window holds. -/
def size : Nat := 4096

/-- How many bytes are too many to be seen at once. -/
def limit : Nat := 65536

/-- How many bytes of a text of a length are its next cluster, and what is seen after it. There is
nothing where the text is too long to go on. -/
def next? (rule : ClusterRule) (v : View) (length : Nat) (text : Bytes) : Option (Nat × View) :=
  match rule v.inView text with
  | some n => some (n, { v with inView := v.inView - n })
  | none =>
    if v.ended then some (1, { v with inView := v.inView - 1 })
    else
      let filled := min size length
      match rule filled text with
      | some n => some (n, ⟨filled - n, false⟩)
      | none => if length < limit then some (1, ⟨length - 1, true⟩) else none

end View

namespace ClusterRule

/-- The clusters of a text of a length, after some that are `done`, the last first; there are at
most `fuel` of them. -/
def clustersFrom (rule : ClusterRule) :
    (fuel : Nat) → (done : List Bytes) → View → (length : Nat) → Bytes → List Bytes
  | 0, done, _, _, _ => done.reverse
  | fuel + 1, done, v, length, text =>
    if length = 0 then done.reverse
    else match v.next? rule length text with
      | none => done.reverse
      | some (n, v) => clustersFrom rule fuel (text.take n :: done) v (length - n) (text.drop n)

/-- The clusters of a text that is read through a window. -/
def read (rule : ClusterRule) (text : Bytes) : List Bytes :=
  rule.clustersFrom text.length [] ⟨0, false⟩ text.length text

end ClusterRule

/-- The grapheme clusters of a text. -/
def clusters : Bytes → List Bytes := ClusterRule.read firstCluster?

end Yurin
